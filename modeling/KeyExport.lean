import KeyExport.Directory
import KeyExport.Dump.Listing
import KeyExport.Options.Load
import KeyExport.Proofs.Disclosure
import KeyExport.Proofs.Exports
import KeyExport.Proofs.KeySet
import KeyExport.Proofs.Markup.Delimited
import KeyExport.Proofs.Markup.Scan
import KeyExport.Proofs.Markup.Token
import KeyExport.Proofs.Markup.Tree
import KeyExport.Proofs.Path.Ancestry
import KeyExport.Proofs.Path.Ascent
import KeyExport.Proofs.Path.Search
import KeyExport.Proofs.Path.Segments
import KeyExport.Proofs.Path.WellFormed
import KeyExport.Proofs.Rendering
import KeyExport.Proofs.Sink.Accepting
import KeyExport.Proofs.Sink.Delivery
import KeyExport.Proofs.Sink.Limited
import KeyExport.Proofs.Text.Ascii
import KeyExport.Proofs.Text.Base64
import KeyExport.Proofs.Text.Textual
import KeyExport.Proofs.Xml.History
import KeyExport.Proofs.Xml.Identification
import KeyExport.Proofs.Xml.Legibility
import KeyExport.Proofs.Xml.Marks
import KeyExport.Proofs.Xml.Markup
import KeyExport.Proofs.Xml.Naming
import KeyExport.Proofs.Xml.Recovery
import KeyExport.Proofs.Xml.Routes
import KeyExport.Proofs.Xml.Structure
import KeyExport.Proofs.Xml.Textual
import KeyExport.Sink.Bounded
import KeyExport.Proofs.CommonParent
import KeyExport.Proofs.Xml.Hierarchy
import KeyExport.Proofs.Xml.Refusal
import KeyExport.Proofs.Xml.Layout
import KeyExport.Proofs.Xml.Basename
import KeyExport.Proofs.Xml.Boundary
import KeyExport.Proofs.Xml.Condensing
import KeyExport.Proofs.Json.Grammar
import KeyExport.Proofs.Options.Flags
import KeyExport.Proofs.Dump.Field
import KeyExport.Proofs.Dump.Recovery
import KeyExport.Proofs.Json.Lexing
import KeyExport.Proofs.Json.Skip
import KeyExport.Proofs.Options.Load
