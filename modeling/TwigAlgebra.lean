import TwigAlgebra.Json.Options
import TwigAlgebra.Json.Plan
import TwigAlgebra.Json.Printer
import TwigAlgebra.Json.Reader
import TwigAlgebra.Pattern.Prune
import TwigAlgebra.Pattern.Tree
import TwigAlgebra.Pattern.Validate
import TwigAlgebra.Proofs.Blindness
import TwigAlgebra.Proofs.CompactCopies
import TwigAlgebra.Proofs.Comparing
import TwigAlgebra.Proofs.Conditions
import TwigAlgebra.Proofs.Conservation
import TwigAlgebra.Proofs.Construction
import TwigAlgebra.Proofs.Declarations
import TwigAlgebra.Proofs.DocumentOrder
import TwigAlgebra.Proofs.Drafting
import TwigAlgebra.Proofs.Freshness
import TwigAlgebra.Proofs.Grafts
import TwigAlgebra.Proofs.Grouping
import TwigAlgebra.Proofs.Growth
import TwigAlgebra.Proofs.Lifecycle
import TwigAlgebra.Proofs.Linkage
import TwigAlgebra.Proofs.Listings
import TwigAlgebra.Proofs.Memos
import TwigAlgebra.Proofs.MinimisedPatterns
import TwigAlgebra.Proofs.MinimisedPlans
import TwigAlgebra.Proofs.Nesting
import TwigAlgebra.Proofs.Overfolding
import TwigAlgebra.Proofs.PathPruning
import TwigAlgebra.Proofs.PlanCheck
import TwigAlgebra.Proofs.PlanExchange
import TwigAlgebra.Proofs.Progress
import TwigAlgebra.Proofs.Refusal
import TwigAlgebra.Proofs.Replacement
import TwigAlgebra.Proofs.Settling
import TwigAlgebra.Proofs.Shrinking
import TwigAlgebra.Proofs.Sprouting
import TwigAlgebra.Proofs.TrailingScans
import TwigAlgebra.Proofs.TreeCheck
import TwigAlgebra.Proofs.Unnesting
import TwigAlgebra.Proofs.VirtualCopies
import TwigAlgebra.Toml.Options
