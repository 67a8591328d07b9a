import InlineCache.Main
import InlineCache.Proofs.Access.ReadBack
import InlineCache.Proofs.Access.Spellings
import InlineCache.Proofs.Access.TrapStatus
import InlineCache.Proofs.Heap.Overfull
import InlineCache.Proofs.Session.Configuration
import InlineCache.Proofs.Session.SiteLives
import InlineCache.Proofs.Site.Learning
import InlineCache.Proofs.Site.Shapes
import InlineCache.Proofs.Proxy.Revocation
import InlineCache.Proofs.Access.Revocation
import InlineCache.Proofs.Site.Table
import InlineCache.Proofs.Access.Neighbours
import InlineCache.Proofs.Access.Definition
import InlineCache.Proofs.Heap.Assignment
import InlineCache.Proofs.Heap.Failures
import InlineCache.Proofs.Proxy.Strictness
import InlineCache.Proofs.Chain.Growth
import InlineCache.Proofs.Access.Frozen
import InlineCache.Proofs.Site.History
import InlineCache.Proofs.ShortestDigits
import InlineCache.Proofs.KeySpelling
import InlineCache.Proofs.Comparison
import InlineCache.Proofs.NumberName
import InlineCache.Proofs.Heap.TableInvariant
import InlineCache.Proofs.Heap.ElementInvariant
import InlineCache.Proofs.IndexNumeral
