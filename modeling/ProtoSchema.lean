import ProtoSchema.Main
import ProtoSchema.Proofs.Grammar.Acceptance
import ProtoSchema.Proofs.Parsing.BraceDiscipline
import ProtoSchema.Proofs.Rendering.RoundTrip
import ProtoSchema.Schema
import ProtoSchema.Proofs.Linking.Names
import ProtoSchema.Proofs.Linking.References
import ProtoSchema.Proofs.Linking.Closed
import ProtoSchema.Proofs.Linking.Registered
import ProtoSchema.Proofs.Linking.Scoping
import ProtoSchema.Proofs.Parsing.Progress
import ProtoSchema.Proofs.Assembly.Quiet
import ProtoSchema.Proofs.Assembly.Reservations
import ProtoSchema.Proofs.Assembly.Numbered
import ProtoSchema.Proofs.Assembly.Members
import ProtoSchema.Proofs.Assembly.Origins
import ProtoSchema.Proofs.Assembly.Rules
import ProtoSchema.Proofs.Assembly.Clashes
import ProtoSchema.Proofs.Recovery.Confined
import ProtoSchema.Proofs.Recovery.Ending
import ProtoSchema.Proofs.Recovery.Derivations
import ProtoSchema.Proofs.Recovery.Bodies
import ProtoSchema.Proofs.Recovery.Isolation
import ProtoSchema.Proofs.Scanning.Tiling
import ProtoSchema.Proofs.Positions.Reports
import ProtoSchema.Proofs.Truncation.Unclosed
import ProtoSchema.Proofs.Independence.Imports
import ProtoSchema.Proofs.Independence.Order
import ProtoSchema.Proofs.Independence.Layout
import ProtoSchema.Proofs.Machine.Reading
import ProtoSchema.Proofs.Scanning.Literals
import ProtoSchema.Proofs.Assembly.Defaults
import ProtoSchema.Proofs.Rendering.Display
import ProtoSchema.Proofs.Scanning.Integers
import ProtoSchema.Proofs.Parsing.Places
import ProtoSchema.Proofs.Positions.Redeclared
import ProtoSchema.Proofs.Positions.Touching
import ProtoSchema.Proofs.Positions.Lines
import ProtoSchema.Proofs.Assembly.SignedWords
import ProtoSchema.Proofs.Linking.DerivedNames
