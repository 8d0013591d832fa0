import Mathlib
import GradualTypes.Proofs.MatchOrder

/-! Types that are open on one side. Some accept everything and others are accepted everywhere, and both notions
go through references and unions, but not alike: where one member of an expected union accepts everything the
union does, and an actual union has to have all its members accepted, unless one of them is unknown. The
universal class is looked at last of all, after references were answered and the actual side was taken apart. -/
namespace GradualTypes.Context

variable {x : Context} {e a : Ty} {c : ClassId}

end GradualTypes.Context
