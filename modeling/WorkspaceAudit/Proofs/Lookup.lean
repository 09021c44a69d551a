/-
WorkspaceAudit/Proofs/Lookup.lean

What stands under a key.

Where no key stands twice, what is found under a key is all that is there with that
key (`mem_iff_lookup`, `find?_eq_some_iff_of_nodup`), so the order of the entries does
not matter (`lookup_eq_of_perm`).
-/
import Mathlib.Data.List.Nodup

namespace WorkspaceAudit

variable {κ α : Type}

/-- What stands before has other keys. -/
theorem not_mem_before_of_nodup {key : α → κ} {before after : List α} {a : α}
    (h : ((before ++ a :: after).map key).Nodup) : key a ∉ before.map key := by
  rw [List.map_append, List.map_cons, List.nodup_middle, List.nodup_cons, List.mem_append,
    not_or] at h
  exact h.1.1

variable [BEq κ] [LawfulBEq κ]

theorem lookup_cons_eq [DecidableEq κ] (n m : κ) (a : α) (es : List (κ × α)) :
    ((n, a) :: es).lookup m = if m = n then some a else es.lookup m := by
  by_cases h : m = n
  · subst h
    rw [List.lookup_cons_self, if_pos rfl]
  · rw [List.lookup_cons, beq_eq_false_iff_ne.mpr h, if_neg h]

theorem lookup_eq_none_iff {es : List (κ × α)} {n : κ} :
    es.lookup n = none ↔ n ∉ es.map Prod.fst := by
  rw [List.lookup_eq_none_iff]
  simp only [bne_iff_ne, List.mem_map, not_exists, not_and]
  exact ⟨fun h e he heq => h e he heq.symm, fun h e he heq => h e he heq.symm⟩

theorem mem_of_lookup {es : List (κ × α)} {n : κ} {a : α} (h : es.lookup n = some a) :
    (n, a) ∈ es := by
  obtain ⟨before, after, rfl, -⟩ := List.lookup_eq_some_iff.mp h
  exact List.mem_append_right before List.mem_cons_self

/-- Where no key stands twice, what is under a key is all that is there with that
key. -/
theorem mem_iff_lookup {es : List (κ × α)} (h : es.Pairwise fun a b => a.1 ≠ b.1)
    {n : κ} {a : α} : (n, a) ∈ es ↔ es.lookup n = some a := by
  classical
  induction es with
  | nil => simp
  | cons e es ih =>
    obtain ⟨hhead, htail⟩ := List.pairwise_cons.mp h
    obtain ⟨m, b⟩ := e
    rw [List.mem_cons, lookup_cons_eq]
    by_cases hn : n = m
    · subst hn
      have hout : (n, a) ∉ es := fun hmem => hhead (n, a) hmem rfl
      simp [hout, eq_comm]
    · rw [if_neg hn, ← ih htail]
      simp [hn]

theorem lookup_eq_of_perm {es es' : List (κ × α)} (h : es.Perm es')
    (hes : es.Pairwise fun a b => a.1 ≠ b.1) (n : κ) : es.lookup n = es'.lookup n := by
  have hes' : es'.Pairwise fun a b => a.1 ≠ b.1 := hes.perm h fun h => h.symm
  ext x
  rw [← mem_iff_lookup hes, ← mem_iff_lookup hes']
  exact h.mem_iff

/-- What is found by a key that nothing else has is what has that key. -/
theorem find?_eq_some_iff_of_nodup {key : α → κ} {as : List α} (h : (as.map key).Nodup) {k : κ}
    {a : α} : (as.find? fun b => key b == k) = some a ↔ a ∈ as ∧ key a = k := by
  constructor
  · intro hfind
    exact ⟨List.mem_of_find?_eq_some hfind, by simpa using List.find?_some hfind⟩
  · rintro ⟨ha, rfl⟩
    -- something is found, and nothing else has that key
    rcases hfind : as.find? fun b => key b == key a with - | b
    · exact absurd (beq_self_eq_true _) (List.find?_eq_none.mp hfind a ha)
    · have hkey : key b = key a := by simpa using List.find?_some hfind
      rw [List.inj_on_of_nodup_map h (List.mem_of_find?_eq_some hfind) ha hkey]

end WorkspaceAudit
