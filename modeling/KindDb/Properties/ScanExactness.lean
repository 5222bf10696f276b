import KindDb.Server.Scans
import KindDb.Lib.Utf8Lines

/-! # Scans are exact

What a scan returns, read off the tree: a prefix scan finds every live record
with the prefix that passes the filters, although it starts at the prefix and
stops at the first key without it; it is the range scan from the prefix with
the other keys dropped, and filters one after the other only narrow it. -/
set_option autoImplicit false

namespace KindDb

open KindDb.Lib
open KindDb.Lib.Utf8Lines (utf8 utf8_lt_utf8)

variable [Serde] [ParseF64]

theorem matchesFilters_append (val : Bytes) (filters₁ filters₂ : List ScanFilter) :
    matchesFilters val (filters₁ ++ filters₂) =
      (matchesFilters val filters₁ && matchesFilters val filters₂) := by
  cases filters₁ with
  | nil => simp [matchesFilters]
  | cons first₁ rest₁ =>
      cases filters₂ with
      | nil => simp [matchesFilters]
      | cons first₂ rest₂ =>
          cases parsed : Serde.valueFromSlice val with
          | none => simp [matchesFilters, parsed]
          | some json => cases json <;> simp [matchesFilters, parsed, Bool.and_assoc]

section Scanned
variable {clock : String → UInt64} {filters : List ScanFilter} {entry : String × DbRecord}
  {record : Record}

theorem scanned_eq_some : scanned clock filters entry = some record ↔
    isExpired entry.2.expiresAt (clock entry.1) = false ∧
      matchesFilters entry.2.value filters = true ∧
      record = { key := entry.1, value := entry.2.value, expiresAt := entry.2.expiresAt } := by
  cases expired : isExpired entry.2.expiresAt (clock entry.1) with
  | true => simp [scanned, expired]
  | false =>
      cases passes : matchesFilters entry.2.value filters with
      | false => simp [scanned, passes]
      | true => simp [scanned, expired, passes, eq_comm]

theorem key_of_scanned (found : scanned clock filters entry = some record) :
    record.key = entry.1 := by
  rw [(scanned_eq_some.mp found).2.2]

theorem scanned_append {filters' : List ScanFilter} :
    scanned clock (filters ++ filters') entry = some record ↔
      scanned clock filters entry = some record ∧ scanned clock filters' entry = some record := by
  rw [scanned_eq_some, scanned_eq_some, scanned_eq_some, matchesFilters_append, Bool.and_eq_true]
  constructor
  · rintro ⟨live, ⟨passes, passes'⟩, same⟩
    exact ⟨⟨live, passes, same⟩, live, passes', same⟩
  · rintro ⟨⟨live, passes, same⟩, _, passes', _⟩
    exact ⟨live, ⟨passes, passes'⟩, same⟩

end Scanned

section Listing
variable (tree : Tree) (clock : String → UInt64) (filters : List ScanFilter)
  (within : String → Bool)

theorem mem_scan {record : Record} :
    record ∈ (tree.toList.filter fun e => within e.1).filterMap (scanned clock filters) ↔
      ∃ r, tree[record.key]? = some r ∧ within record.key = true ∧
        scanned clock filters (record.key, r) = some record := by
  constructor
  · intro member
    obtain ⟨⟨key, r⟩, listed, found⟩ := List.mem_filterMap.mp member
    obtain ⟨held, chosen⟩ := List.mem_filter.mp listed
    have same : record.key = key := key_of_scanned found
    rw [same]
    exact ⟨r, Std.ExtTreeMap.mem_toList_iff_getElem?_eq_some.mp held, chosen, found⟩
  · rintro ⟨r, held, chosen, found⟩
    refine List.mem_filterMap.mpr ⟨(record.key, r), List.mem_filter.mpr ⟨?_, chosen⟩, found⟩
    exact Std.ExtTreeMap.mem_toList_iff_getElem?_eq_some.mpr held

/-- A scan lists its records in the order of the keys' bytes. -/
theorem ascending_scan :
    ((tree.toList.filter fun e => within e.1).filterMap (scanned clock filters)).Pairwise
      fun first second => utf8 first.key < utf8 second.key := by
  have sorted : tree.toList.Pairwise fun a b => compare a.1 b.1 = .lt :=
    Std.ExtTreeMap.ordered_keys_toList
  apply List.pairwise_filterMap.mpr
  apply (sorted.filter _).imp
  intro first second less record found record' found'
  rw [key_of_scanned found, key_of_scanned found']
  exact utf8_lt_utf8.mpr (compareOfLessAndEq_eq_lt.mp less)

end Listing

namespace KindServerImpl

variable (s : KindServerImpl) (p : String) (filters : List ScanFilter) (clock : String → UInt64)

theorem mem_prefixScan {record : Record} : record ∈ s.prefixScan ⟨p, filters⟩ clock ↔
    ∃ r, s.tree[record.key]? = some r ∧ record.key.startsWith p = true ∧
      scanned clock filters (record.key, r) = some record := by
  rw [prefixScan_eq]
  exact mem_scan s.tree clock filters fun key => key.startsWith p

/-- Up to a bound that no key with the prefix exceeds, the range scan meets what
the prefix scan meets. -/
theorem prefixScan_eq_rangeScan {hi : String}
    (atMost : ∀ key r, s.tree[key]? = some r → key.startsWith p = true → key ≤ hi) :
    s.prefixScan ⟨p, filters⟩ clock =
      (s.rangeScan ⟨p, hi, filters⟩ clock).filter fun record => record.key.startsWith p := by
  have dropped : ∀ entries : List (String × DbRecord),
      (entries.filterMap (scanned clock filters)).filter (fun record => record.key.startsWith p) =
        (entries.filter fun e => e.1.startsWith p).filterMap (scanned clock filters) := by
    intro entries
    induction entries with
    | nil => rfl
    | cons entry entries ih =>
        cases found : scanned clock filters entry with
        | none =>
            cases starts : entry.1.startsWith p <;> simp [found, starts, ih]
        | some record =>
            have same := key_of_scanned found
            cases starts : entry.1.startsWith p <;> simp [found, starts, same, ih]
  rw [prefixScan_eq, rangeScan, dropped, List.filter_filter]
  congr 1
  refine List.filter_congr fun entry member => ?_
  cases starts : entry.1.startsWith p with
  | false => rfl
  | true =>
      have from_ : p ≤ entry.1 := not_lt_of_isPrefix (String.startsWith_string_iff.mp starts)
      have upTo : entry.1 ≤ hi :=
        atMost entry.1 entry.2 (Std.ExtTreeMap.mem_toList_iff_getElem?_eq_some.mp member) starts
      simp [from_, upTo]

theorem mem_prefixScan_append (filters' : List ScanFilter) {record : Record} :
    record ∈ s.prefixScan ⟨p, filters ++ filters'⟩ clock ↔
      record ∈ s.prefixScan ⟨p, filters⟩ clock ∧ record ∈ s.prefixScan ⟨p, filters'⟩ clock := by
  rw [mem_prefixScan, mem_prefixScan, mem_prefixScan]
  constructor
  · rintro ⟨r, held, starts, found⟩
    obtain ⟨found₁, found₂⟩ := scanned_append.mp found
    exact ⟨⟨r, held, starts, found₁⟩, r, held, starts, found₂⟩
  · rintro ⟨⟨r, held, starts, found₁⟩, r', held', _, found₂⟩
    have same : r = r' := Option.some.inj (held.symm.trans held')
    exact ⟨r, held, starts, scanned_append.mpr ⟨found₁, same ▸ found₂⟩⟩

/-- A prefix scan returns the live records with the prefix that pass the filters,
each once and in the order of the keys' bytes; it returns what a range scan from
the prefix to any bound above those keys does, less the keys without the prefix;
and with two lists of filters it returns what it returns with either. -/
theorem prefixScan_exact :
    (∀ record, record ∈ s.prefixScan ⟨p, filters⟩ clock ↔
      ∃ r, s.tree[record.key]? = some r ∧ record.key.startsWith p = true ∧
        isExpired r.expiresAt (clock record.key) = false ∧
        matchesFilters r.value filters = true ∧
        record = { key := record.key, value := r.value, expiresAt := r.expiresAt }) ∧
    ((s.prefixScan ⟨p, filters⟩ clock).Pairwise fun first second =>
      utf8 first.key < utf8 second.key) ∧
    (∀ hi, (∀ key ∈ s.tree, key.startsWith p = true → utf8 key ≤ utf8 hi) →
      s.prefixScan ⟨p, filters⟩ clock =
        (s.rangeScan ⟨p, hi, filters⟩ clock).filter fun record => record.key.startsWith p) ∧
    ∀ filters' record, record ∈ s.prefixScan ⟨p, filters ++ filters'⟩ clock ↔
      record ∈ s.prefixScan ⟨p, filters⟩ clock ∧ record ∈ s.prefixScan ⟨p, filters'⟩ clock := by
  refine ⟨fun record => ?_, ?_, fun hi atMost => ?_, fun filters' record => ?_⟩
  · rw [mem_prefixScan]
    apply exists_congr
    intro r
    rw [scanned_eq_some]
  · rw [prefixScan_eq]
    exact ascending_scan s.tree clock filters fun key => key.startsWith p
  · apply prefixScan_eq_rangeScan
    intro key r held starts less
    have member : key ∈ s.tree := Std.ExtTreeMap.mem_iff_isSome_getElem?.mpr (by rw [held]; rfl)
    exact atMost key member starts (utf8_lt_utf8.mpr less)
  · exact mem_prefixScan_append s p filters clock filters'

end KindServerImpl

end KindDb
