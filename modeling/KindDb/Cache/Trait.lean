import KindDb.Lib.Refinement
import KindDb.Lib.SortedMap

/-! # The `Cache` trait

The operations of the trait and what they answer.  The three caches of
`cache.rs` are machines that take them one by one. -/
set_option autoImplicit false

namespace KindDb.Cache

inductive CacheOp (K V : Type)
  | get (key : K)
  | put (key : K) (value : V)
  | invalidate (key : K)
deriving Repr, DecidableEq

def CacheOp.key {K V : Type} : CacheOp K V → K
  | .get key => key
  | .put key _ => key
  | .invalidate key => key

inductive CacheAnswer (V : Type)
  | got (value : Option V)
  | done
deriving Repr, DecidableEq

end KindDb.Cache
