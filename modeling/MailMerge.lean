import MailMerge.Main
import MailMerge.Proofs.Block.Anchors
import MailMerge.Proofs.Block.Call
import MailMerge.Proofs.Block.Copies
import MailMerge.Proofs.Block.Interior
import MailMerge.Proofs.Cache.Invisible
import MailMerge.Proofs.Field.Containers
import MailMerge.Proofs.Field.Discovery
import MailMerge.Proofs.Field.Insertion
import MailMerge.Proofs.Field.Shown
import MailMerge.Proofs.Rendering.Apart
import MailMerge.Proofs.Rendering.Call
import MailMerge.Proofs.Rendering.Clearing
import MailMerge.Proofs.Rendering.Insertion
import MailMerge.Proofs.Rendering.Matched
import MailMerge.Proofs.Rendering.Nesting
import MailMerge.Proofs.Rendering.Readings
import MailMerge.Proofs.Rendering.Registries
import MailMerge.Proofs.Rendering.Stepwise
import MailMerge.Proofs.Rendering.Undisturbed
import MailMerge.Proofs.Resources.ContentTypes
import MailMerge.Proofs.Resources.Written
import MailMerge.Proofs.Statement.Ready
import MailMerge.Proofs.Statement.Scanner
import MailMerge.Proofs.Statement.Waiting
import MailMerge.Proofs.Template.Reference
import MailMerge.Proofs.Xml.Bounds
import MailMerge.Proofs.Field.Bodies
import MailMerge.Proofs.Field.Pictures
import MailMerge.Proofs.Xml.Gains
import MailMerge.Proofs.Xml.Revision
import MailMerge.Proofs.Xml.RoundTrip
import MailMerge.Resources.Relationships
import MailMerge.Proofs.Argument.Listed
import MailMerge.Proofs.Argument.Grammar
import MailMerge.Proofs.Rendering.Failing
import MailMerge.Proofs.Block.Siblings
import MailMerge.Proofs.Rendering.Loops
import MailMerge.Proofs.Rendering.Reshaping
import MailMerge.Proofs.Field.Copy
import MailMerge.Proofs.Content.Siblings
import MailMerge.Proofs.Field.Placing
import MailMerge.Proofs.Xml.Unambiguous
import MailMerge.Proofs.Part.FirstPage
