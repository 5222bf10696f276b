import KindDb.Server.Handlers

/-! # Scans

`range_scan` and `prefix_scan`.  The clock is read anew for every record, so a
scan takes the readings as a function of the key.  A prefix scan stops at the
first key that does not start with the prefix; in the order of the keys none
that does comes later (`prefixScan_eq`). -/
set_option autoImplicit false

namespace KindDb

open KindDb.Lib

structure ScanFilter where
  field : String
  value : String
deriving Repr, DecidableEq

structure RangeScanRequest where
  lo : String
  hi : String
  filters : List ScanFilter
deriving Repr, DecidableEq

structure PrefixScanRequest where
  keyPrefix : String
  filters : List ScanFilter
deriving Repr, DecidableEq

/-- `str::parse::<f64>` -/
class ParseF64 where
  parseF64 : String → Option Float

def JsonNumber.asF64 : JsonNumber → Float
  | .posInt n => n.toFloat
  | .negInt n => n.toFloat
  | .float bits => Float.ofBits bits

section Filters
variable [Serde] [ParseF64]

/-- One turn of the loop over the filters, for a field that is there. -/
def ScanFilter.accepts (filter : ScanFilter) : Json → Bool
  | .string s => s == filter.value
  | .number n =>
      if n.toString = filter.value then true
      else match ParseF64.parseF64 filter.value with
        | some f2 => (n.asF64 - f2).abs < 2.220446049250313e-16
        | none => false
  | .bool b => toString b == filter.value
  | _ => false

def matchesFilters (val : Bytes) (filters : List ScanFilter) : Bool :=
  if filters.isEmpty then true
  else match Serde.valueFromSlice val with
    | some (.object obj) => filters.all fun filter =>
        match obj.lookup filter.field with
        | some v => filter.accepts v
        | none => false
    | _ => false

/-- What a scan returns of one entry. -/
def scanned (clock : String → UInt64) (filters : List ScanFilter) (entry : String × DbRecord) :
    Option Record :=
  if !isExpired entry.2.expiresAt (clock entry.1) && matchesFilters entry.2.value filters then
    some { key := entry.1, value := entry.2.value, expiresAt := entry.2.expiresAt }
  else none

namespace KindServerImpl

def rangeScan (s : KindServerImpl) (req : RangeScanRequest) (clock : String → UInt64) :
    List Record :=
  (s.tree.toList.filter fun entry => req.lo ≤ entry.1 && entry.1 ≤ req.hi).filterMap
    (scanned clock req.filters)

def prefixScan (s : KindServerImpl) (req : PrefixScanRequest) (clock : String → UInt64) :
    List Record :=
  ((s.tree.toList.filter fun entry => req.keyPrefix ≤ entry.1).takeWhile
    fun entry => entry.1.startsWith req.keyPrefix).filterMap (scanned clock req.filters)

end KindServerImpl

end Filters

/-! ## Keys with a common beginning -/

theorem not_lt_of_isPrefix {pre key : List Char} (starts : pre <+: key) : ¬ key < pre := by
  induction pre generalizing key with
  | nil => exact List.not_lt_nil key
  | cons first rest ih =>
      obtain ⟨tail, rfl⟩ := starts
      intro less
      rcases List.cons_lt_cons_iff.mp less with smaller | ⟨_, smaller⟩
      · exact absurd smaller (lt_irrefl first)
      · exact ih ⟨tail, rfl⟩ smaller

/-- Between a text and one that starts with it, all texts start with it. -/
theorem isPrefix_of_between {pre key later : List Char} (from_ : ¬ key < pre) (less : key < later)
    (starts : pre <+: later) : pre <+: key := by
  induction pre generalizing key later with
  | nil => exact List.nil_prefix
  | cons first rest ih =>
      obtain ⟨tail, rfl⟩ := starts
      cases key with
      | nil => exact absurd (List.nil_lt_cons first rest) from_
      | cons head key =>
          have notLess : ¬ head < first := fun smaller =>
            from_ (List.cons_lt_cons_iff.mpr (Or.inl smaller))
          rcases List.cons_lt_cons_iff.mp less with smaller | ⟨rfl, smaller⟩
          · exact absurd smaller notLess
          · refine (List.prefix_cons_inj head).mpr (ih (fun smaller => ?_) smaller ⟨tail, rfl⟩)
            exact from_ (List.cons_lt_cons_iff.mpr (Or.inr ⟨rfl, smaller⟩))

variable [Serde] [ParseF64]

namespace KindServerImpl

theorem prefixScan_eq (s : KindServerImpl) (req : PrefixScanRequest) (clock : String → UInt64) :
    s.prefixScan req clock =
      (s.tree.toList.filter fun entry => entry.1.startsWith req.keyPrefix).filterMap
        (scanned clock req.filters) := by
  have sorted : s.tree.toList.Pairwise fun a b => compare a.1 b.1 = .lt :=
    Std.ExtTreeMap.ordered_keys_toList
  have closed : (s.tree.toList.filter fun entry => req.keyPrefix ≤ entry.1).Pairwise
      fun first second => second.1.startsWith req.keyPrefix = true →
        first.1.startsWith req.keyPrefix = true := by
    refine List.Pairwise.imp_of_mem ?_ (sorted.filter _)
    intro first second member _ less starts
    have from_ : req.keyPrefix ≤ first.1 := by simpa using (List.mem_filter.mp member).2
    have smaller : first.1 < second.1 := compareOfLessAndEq_eq_lt.mp less
    rw [String.startsWith_string_iff] at starts ⊢
    exact isPrefix_of_between from_ smaller starts
  unfold prefixScan
  rw [SortedMap.takeWhile_eq_filter closed, List.filter_filter]
  refine congrArg _ (List.filter_congr fun entry _ => ?_)
  cases starts : entry.1.startsWith req.keyPrefix with
  | false => rfl
  | true =>
      have : req.keyPrefix ≤ entry.1 :=
        not_lt_of_isPrefix (String.startsWith_string_iff.mp starts)
      simpa using this

end KindServerImpl

/-- Scans do not see expired records: trees that agree on the live ones give
the same answers. -/
theorem scan_congr {tree tree' : Tree} {clock : String → UInt64}
    (alike : ∀ k : String, (tree[k]?).filter (fun r => !isExpired r.expiresAt (clock k)) =
      (tree'[k]?).filter fun r => !isExpired r.expiresAt (clock k))
    (within : String × DbRecord → Bool) (filters : List ScanFilter) :
    (tree.toList.filter within).filterMap (scanned clock filters) =
      (tree'.toList.filter within).filterMap (scanned clock filters) := by
  have liveOnly : ∀ entries : List (String × DbRecord),
      (entries.filter within).filterMap (scanned clock filters) =
        ((entries.filter fun e => !isExpired e.2.expiresAt (clock e.1)).filter within).filterMap
          (scanned clock filters) := by
    intro entries
    rw [List.filterMap_filter, List.filterMap_filter, List.filterMap_filter]
    refine List.filterMap_congr fun entry _ => ?_
    cases expired : isExpired entry.2.expiresAt (clock entry.1) <;> simp [scanned, expired]
  rw [liveOnly, SortedMap.filter_toList_congr alike, ← liveOnly]

end KindDb
