import SchemaLang.Document.Equality
import SchemaLang.Load
import SchemaLang.Proofs.Abort
import SchemaLang.Proofs.Acceptance
import SchemaLang.Proofs.Causes
import SchemaLang.Proofs.Context
import SchemaLang.Proofs.Document.Append
import SchemaLang.Proofs.Document.Rearranged
import SchemaLang.Proofs.Document.Unbound
import SchemaLang.Proofs.Incremental
import SchemaLang.Proofs.Order
import SchemaLang.Proofs.ParseAppend
import SchemaLang.Proofs.Persistence
import SchemaLang.Proofs.Reader.Carries
import SchemaLang.Proofs.Reader.Cuts
import SchemaLang.Proofs.Reader.Kept
import SchemaLang.Proofs.Recovery
import SchemaLang.Proofs.RoundTrip
import SchemaLang.Proofs.Session
import SchemaLang.Proofs.Settled
import SchemaLang.Proofs.Soundness
import SchemaLang.Proofs.Text.Behind
import SchemaLang.Proofs.Text.Concat
import SchemaLang.Proofs.Text.Cut
import SchemaLang.Proofs.Verdict
import SchemaLang.Proofs.Document.Anchored
import SchemaLang.Proofs.Reader.Anchors
import SchemaLang.Proofs.Text.Places
import SchemaLang.Proofs.Standing
import SchemaLang.Proofs.Text.Spacing
import SchemaLang.Proofs.Respaced
import SchemaLang.Proofs.Text.Tiling
import SchemaLang.Proofs.Text.Columns
import SchemaLang.Proofs.Text.Language
import SchemaLang.Proofs.Document.Sites
import SchemaLang.Proofs.Bindings
import SchemaLang.Proofs.Document.Contents
import SchemaLang.Proofs.Promises
import SchemaLang.Proofs.Words
import SchemaLang.Proofs.Passes
import SchemaLang.Proofs.Strings
import SchemaLang.Proofs.Survivors
import SchemaLang.Proofs.Text.Dedent
import SchemaLang.Proofs.Text.Closing
import SchemaLang.Proofs.Document.Normal
import SchemaLang.Proofs.Store
import SchemaLang.Proofs.Text.Escapes
import SchemaLang.Proofs.Wrappers
import SchemaLang.Proofs.Guarded.Run
