import Std.Data.ExtTreeMap

/-!
# Counting the entries of a map

`tally m test` is the number of values of a map that pass a test. An entry that is added, replaced
or taken out changes the count by itself alone: `tally_insert` and `tally_eq_add_erase` say so, and
everything a reference count has to satisfy follows from these two. The lemmas before them read a
key of a map that was changed at one key.
-/

namespace Espalier

variable {K V : Type} {cmp : K → K → Ordering} [Std.TransCmp cmp] [Std.LawfulEqCmp cmp]

/-- How many values of a map pass a test. -/
def tally (m : Std.ExtTreeMap K V cmp) (test : V → Bool) : Nat :=
  m.toList.countP fun entry => test entry.2

/-- Reading a key of a map one key of which was set. -/
theorem getElem?_insert_ite [DecidableEq K] (m : Std.ExtTreeMap K V cmp) (k k' : K) (v : V) :
    (m.insert k v)[k']? = if k = k' then some v else m[k']? := by
  rw [Std.ExtTreeMap.getElem?_insert]
  simp only [Std.LawfulEqCmp.compare_eq_iff_eq]

/-- Reading a key of a map one key of which was taken out. -/
theorem getElem?_erase_ite [DecidableEq K] (m : Std.ExtTreeMap K V cmp) (k k' : K) :
    (m.erase k)[k']? = if k = k' then none else m[k']? := by
  rw [Std.ExtTreeMap.getElem?_erase]
  simp only [Std.LawfulEqCmp.compare_eq_iff_eq]

/-- Setting a key does not show at another one. -/
theorem getElem?_insert_ne [DecidableEq K] (m : Std.ExtTreeMap K V cmp) {k k' : K} (v : V)
    (hne : k ≠ k') : (m.insert k v)[k']? = m[k']? := by
  rw [getElem?_insert_ite, if_neg hne]

/-- Taking out a key does not show at another one. -/
theorem getElem?_erase_ne [DecidableEq K] (m : Std.ExtTreeMap K V cmp) {k k' : K}
    (hne : k ≠ k') : (m.erase k)[k']? = m[k']? := by
  rw [getElem?_erase_ite, if_neg hne]

/-- What is there after a key was set is what it was set to, or it was there before. -/
theorem new_or_there_of_insert [DecidableEq K] {m : Std.ExtTreeMap K V cmp} {k k' : K} {v v' : V}
    (h : (m.insert k v)[k']? = some v') : (k = k' ∧ v = v') ∨ (k ≠ k' ∧ m[k']? = some v') := by
  rw [getElem?_insert_ite] at h
  by_cases hk : k = k'
  · rw [if_pos hk] at h
    exact Or.inl ⟨hk, Option.some.inj h⟩
  · rw [if_neg hk] at h
    exact Or.inr ⟨hk, h⟩

/-- What is there after a key was taken out was there before, at another key. -/
theorem there_of_erase [DecidableEq K] {m : Std.ExtTreeMap K V cmp} {k k' : K} {v' : V}
    (h : (m.erase k)[k']? = some v') : k ≠ k' ∧ m[k']? = some v' := by
  rw [getElem?_erase_ite] at h
  by_cases hk : k = k'
  · rw [if_pos hk] at h
    exact absurd h (by simp)
  · rw [if_neg hk] at h
    exact ⟨hk, h⟩

/-- Setting a key to what it is changes nothing. -/
theorem insert_eq_self [DecidableEq K] {m : Std.ExtTreeMap K V cmp} {k : K} {v : V}
    (h : m[k]? = some v) : m.insert k v = m := by
  ext k' v'
  rw [getElem?_insert_ite]
  by_cases hk : k = k'
  · rw [if_pos hk, ← hk, h]
  · rw [if_neg hk]

/-- Changing what is at a key that is there sets the key to what it becomes. -/
theorem modify_eq_insert {m : Std.ExtTreeMap K V cmp} {k : K} {v : V}
    (h : m[k]? = some v) (f : V → V) : m.modify k f = m.insert k (f v) := by
  ext k' v'
  rw [Std.ExtTreeMap.getElem?_modify, Std.ExtTreeMap.getElem?_insert]
  by_cases hk : cmp k k' = .eq
  · rw [if_pos hk, if_pos hk, h, Option.map_some]
  · rw [if_neg hk, if_neg hk]

/-- Changing what is at a key that is not there changes nothing. -/
theorem modify_eq_self {m : Std.ExtTreeMap K V cmp} {k : K} (h : m[k]? = none) (f : V → V) :
    m.modify k f = m := by
  ext k' v'
  rw [Std.ExtTreeMap.getElem?_modify]
  by_cases hk : cmp k k' = .eq
  · rw [if_pos hk, ← Std.LawfulEqCmp.eq_of_compare hk, h, Option.map_none]
  · rw [if_neg hk]

omit [Std.LawfulEqCmp cmp] in
/-- No entry is listed twice. -/
theorem toList_nodup (m : Std.ExtTreeMap K V cmp) : m.toList.Nodup := by
  refine m.distinct_keys_toList.imp fun {a b} hab heq => hab ?_
  rw [heq]
  exact Std.ReflCmp.compare_self

/-- An entry and the entries other than it are all there are. -/
theorem toList_perm_cons_erase {m : Std.ExtTreeMap K V cmp} {k : K} {v : V}
    (h : m[k]? = some v) : m.toList.Perm ((k, v) :: (m.erase k).toList) := by
  have hfresh : (k, v) ∉ (m.erase k).toList := by
    rw [Std.ExtTreeMap.mem_toList_iff_getElem?_eq_some]
    simp
  rw [List.perm_ext_iff_of_nodup (toList_nodup m)
    (List.nodup_cons.mpr ⟨hfresh, toList_nodup _⟩)]
  rintro ⟨k', v'⟩
  rw [List.mem_cons, Std.ExtTreeMap.mem_toList_iff_getElem?_eq_some,
    Std.ExtTreeMap.mem_toList_iff_getElem?_eq_some, Std.ExtTreeMap.getElem?_erase]
  by_cases hk : k = k'
  · subst hk
    simp [h, eq_comm]
  · simp [hk, Ne.symm hk]

/-- The count is that of one entry and that of the others. -/
theorem tally_eq_add_erase {m : Std.ExtTreeMap K V cmp} {k : K} {v : V} (h : m[k]? = some v)
    (test : V → Bool) : tally m test = tally (m.erase k) test + (test v).toNat := by
  unfold tally
  rw [(toList_perm_cons_erase h).countP_eq, List.countP_cons]
  cases test v <;> rfl

/-- An entry that is put in counts for itself, and what it replaces counts no longer. -/
theorem tally_insert (m : Std.ExtTreeMap K V cmp) (k : K) (v : V) (test : V → Bool) :
    tally (m.insert k v) test = tally (m.erase k) test + (test v).toNat := by
  have herase : (m.insert k v).erase k = m.erase k := by
    ext k' v'
    rw [Std.ExtTreeMap.getElem?_erase, Std.ExtTreeMap.getElem?_erase,
      Std.ExtTreeMap.getElem?_insert]
    by_cases hk : cmp k k' = .eq
    · rw [if_pos hk, if_pos hk]
    · rw [if_neg hk, if_neg hk, if_neg hk]
  rw [tally_eq_add_erase (Std.ExtTreeMap.getElem?_insert_self) test, herase]

/-- Taking out what is not there changes nothing. -/
theorem erase_eq_self {m : Std.ExtTreeMap K V cmp} {k : K} (h : m[k]? = none) :
    m.erase k = m := by
  ext k' v'
  rw [Std.ExtTreeMap.getElem?_erase]
  by_cases hk : cmp k k' = .eq
  · rw [if_pos hk, ← Std.LawfulEqCmp.eq_of_compare hk, h]
  · rw [if_neg hk]

/-- A value that is there and passes the test is counted. -/
theorem tally_pos {m : Std.ExtTreeMap K V cmp} {k : K} {v : V} {test : V → Bool}
    (h : m[k]? = some v) (hv : test v = true) : 0 < tally m test := by
  rw [tally_eq_add_erase h, hv]
  exact Nat.succ_pos _

/-- What is counted is there. -/
theorem exists_of_tally_pos {m : Std.ExtTreeMap K V cmp} {test : V → Bool} (h : 0 < tally m test) :
    ∃ (k : K) (v : V), m[k]? = some v ∧ test v = true := by
  obtain ⟨⟨k, v⟩, hmem, htest⟩ := List.countP_pos_iff.mp h
  exact ⟨k, v, Std.ExtTreeMap.mem_toList_iff_getElem?_eq_some.mp hmem, htest⟩

/-- Besides any value there is one that is counted, if several are. -/
theorem exists_other_of_tally [DecidableEq K] {m : Std.ExtTreeMap K V cmp} {test : V → Bool}
    {k : K} {v : V} (hmany : 1 < tally m test) (h : m[k]? = some v) :
    ∃ (k' : K) (v' : V), k ≠ k' ∧ m[k']? = some v' ∧ test v' = true := by
  have hrest := tally_eq_add_erase h test
  have hone : (test v).toNat ≤ 1 := Bool.toNat_le _
  have hpos : 0 < tally (m.erase k) test := by omega
  obtain ⟨k', v', hv', htest⟩ := exists_of_tally_pos hpos
  obtain ⟨hne, hthere⟩ := there_of_erase hv'
  exact ⟨k', v', hne, hthere, htest⟩

/-- A value that passes a test nothing else passes is the only one. -/
theorem eq_of_tally_le_one {m : Std.ExtTreeMap K V cmp} {k k' : K} {v v' : V}
    {test : V → Bool} (hle : tally m test ≤ 1) (h : m[k]? = some v) (hv : test v = true)
    (h' : m[k']? = some v') (hv' : test v' = true) : k = k' := by
  refine Classical.byContradiction fun hne => ?_
  have herased : (m.erase k)[k']? = some v' := by
    rw [Std.ExtTreeMap.getElem?_erase, if_neg (by simpa using hne)]
    exact h'
  have hpos := tally_pos herased hv'
  rw [tally_eq_add_erase h, hv] at hle
  have hone : true.toNat = 1 := rfl
  omega

omit [Std.LawfulEqCmp cmp] in
/-- A map without entries has nothing to count. -/
theorem tally_empty (test : V → Bool) :
    tally (∅ : Std.ExtTreeMap K V cmp) test = 0 := by
  unfold tally
  rw [Std.ExtTreeMap.toList_eq_nil_iff.mpr rfl]
  rfl

end Espalier
