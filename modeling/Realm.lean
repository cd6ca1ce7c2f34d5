import Realm.CommandLine
import Realm.Main
import Realm.Mount.Registry
import Realm.Log
import Realm.Proofs.Mediation
import Realm.Proofs.Repetition
import Realm.Proofs.Acl.Transparency
import Realm.Proofs.Acl.Lookup
import Realm.Proofs.Acl.Refusal
import Realm.Proofs.Acl.Beneath
import Realm.Proofs.Acl.Availability
import Realm.Proofs.Acl.Frame
import Realm.Proofs.Acl.RoundTrip
import Realm.Proofs.Acl.Grants
import Realm.Proofs.Command.Quoting
import Realm.Proofs.Command.Unlinking
import Realm.Proofs.Command.Covering
import Realm.Proofs.FileSystem.Refinement
import Realm.Proofs.FileSystem.Places
import Realm.Proofs.Session
import Realm.Proofs.Continuation
import Realm.Proofs.Command.Governing
import Realm.Proofs.Command.Composition
import Realm.Proofs.Command.Plain
import Realm.Proofs.Command.Globbing
import Realm.Proofs.Expansion
import Realm.Proofs.Expansion.Splicing
import Realm.Proofs.Expansion.Completeness
import Realm.Proofs.Command.Variables
import Realm.Proofs.Command.Machine
import Realm.Proofs.Command.Locating
import Realm.Proofs.History.Reference
import Realm.Proofs.History.QuickSubstitution
import Realm.Proofs.History.Locality
import Realm.Proofs.Command.Splicing
import Realm.Proofs.Acl.Monotone
import Realm.Proofs.Acl.Guards
import Realm.Proofs.Acl.Segments
import Realm.Proofs.Glob.Matching
import Realm.Proofs.Command.Template
import Realm.Proofs.Command.Classification
import Realm.Proofs.Command.Renaming
import Realm.Proofs.Log
