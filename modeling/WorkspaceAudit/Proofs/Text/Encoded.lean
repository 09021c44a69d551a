/-
WorkspaceAudit/Proofs/Text/Encoded.lean

ASCII in the bytes of a text.

A text is encoded character by character (`ofText_eq`).  A character of ASCII is
one byte below 128, and every byte of any other character is 128 or more, so no
byte of ASCII is ever a part of another character.  What is counted or searched
for in the bytes of a text is therefore what is counted or searched for in its
characters, as long as it is ASCII (`count_ofText`, `infix_ofText_iff`).
-/
import WorkspaceAudit.Text.Utf8

namespace WorkspaceAudit

/-- A character that is one byte below 128. -/
def IsAscii (c : Char) : Prop :=
  c.toNat < 128

instance (c : Char) : Decidable (IsAscii c) :=
  inferInstanceAs (Decidable (c.toNat < 128))

/-- Characters that are all of ASCII. -/
def AllAscii (cs : List Char) : Prop :=
  ∀ c ∈ cs, IsAscii c

instance (cs : List Char) : Decidable (AllAscii cs) :=
  List.decidableBAll IsAscii cs

namespace Bytes

/-! ### One character -/

theorem utf8EncodeChar_of_isAscii {c : Char} (h : IsAscii c) :
    String.utf8EncodeChar c = [c.toUInt8] := by
  have hsize : c.utf8Size = 1 := by
    rw [Char.utf8Size_eq_one_iff, UInt32.le_iff_toNat_le]
    exact Nat.le_of_lt_succ h
  rw [String.utf8EncodeChar_eq_singleton hsize]
  rfl

theorem toNat_toUInt8 {c : Char} (h : IsAscii c) : c.toUInt8.toNat = c.toNat := by
  show c.toNat % 256 = c.toNat
  rw [IsAscii] at h
  omega

/-- Below 128 a character is told by its byte. -/
theorem toUInt8_inj {c d : Char} (hc : IsAscii c) (hd : IsAscii d) :
    c.toUInt8 = d.toUInt8 ↔ c = d := by
  constructor
  · intro h
    have hnat : c.toNat = d.toNat := by
      rw [← toNat_toUInt8 hc, ← toNat_toUInt8 hd, h]
    rw [← Char.ofNat_toNat c, ← Char.ofNat_toNat d, hnat]
  · rintro rfl
    rfl

/-- No byte of a longer character is one of ASCII. -/
theorem le_of_mem_utf8EncodeChar {c : Char} (h : ¬ IsAscii c) {b : UInt8}
    (hb : b ∈ String.utf8EncodeChar c) : 128 ≤ b.toNat := by
  have hc : ¬ c.val.toNat ≤ 127 := fun hle => h (Nat.lt_succ_of_le hle)
  rw [String.utf8EncodeChar, if_neg hc] at hb
  split at hb
  · simp only [List.mem_cons, List.not_mem_nil, or_false] at hb
    rcases hb with rfl | rfl
    all_goals rw [UInt8.toNat_ofNat']; omega
  · split at hb
    · simp only [List.mem_cons, List.not_mem_nil, or_false] at hb
      rcases hb with rfl | rfl | rfl
      all_goals rw [UInt8.toNat_ofNat']; omega
    · simp only [List.mem_cons, List.not_mem_nil, or_false] at hb
      rcases hb with rfl | rfl | rfl | rfl
      all_goals rw [UInt8.toNat_ofNat']; omega

theorem toUInt8_not_mem {c d : Char} (hc : IsAscii c) (hd : ¬ IsAscii d) :
    c.toUInt8 ∉ String.utf8EncodeChar d := by
  intro hmem
  have hle := le_of_mem_utf8EncodeChar hd hmem
  rw [toNat_toUInt8 hc] at hle
  exact absurd hc (Nat.not_lt.mpr hle)

theorem utf8EncodeChar_ne_nil (c : Char) : String.utf8EncodeChar c ≠ [] := by
  unfold String.utf8EncodeChar
  dsimp only
  split
  · exact List.cons_ne_nil _ _
  · split
    · exact List.cons_ne_nil _ _
    · split <;> exact List.cons_ne_nil _ _

/-! ### Texts -/

/-- The bytes of a text are those of its characters. -/
theorem ofText_eq (s : String) : ofText s = s.toList.flatMap String.utf8EncodeChar := by
  have h : s.toByteArray = s.toList.utf8Encode := by
    rw [← String.toByteArray_ofList, String.ofList_toList]
  rw [ofText, h]
  exact List.toList_data_toByteArray

theorem flatMap_utf8EncodeChar_of_isAscii {cs : List Char} (h : AllAscii cs) :
    cs.flatMap String.utf8EncodeChar = cs.map Char.toUInt8 := by
  induction cs with
  | nil => rfl
  | cons c cs ih =>
    rw [List.flatMap_cons, utf8EncodeChar_of_isAscii (h c List.mem_cons_self),
      ih fun d hd => h d (List.mem_cons_of_mem c hd)]
    rfl

/-- A byte of ASCII occurs as often as its character. -/
theorem count_ofText {c : Char} (hc : IsAscii c) (s : String) :
    (ofText s).count c.toUInt8 = s.toList.count c := by
  rw [ofText_eq]
  induction s.toList with
  | nil => rfl
  | cons d cs ih =>
    rw [List.flatMap_cons, List.count_append, ih, List.count_cons]
    by_cases hd : IsAscii d
    · rw [utf8EncodeChar_of_isAscii hd, List.count_singleton, Nat.add_comm]
      simp only [beq_iff_eq, toUInt8_inj hd hc]
    · have hne : d ≠ c := fun heq => hd (heq ▸ hc)
      rw [List.count_eq_zero_of_not_mem (toUInt8_not_mem hc hd), beq_eq_false_iff_ne.mpr hne]
      simp

/-! ### Parts of texts -/

variable {part : List Char}

/-- The bytes of a part in ASCII start an encoding where the part starts the
text. -/
theorem prefix_utf8Encode_iff (hpart : AllAscii part) (cs : List Char) :
    part.map Char.toUInt8 <+: cs.flatMap String.utf8EncodeChar ↔ part <+: cs := by
  induction part generalizing cs with
  | nil => simp
  | cons a part ih =>
    have ha := hpart a List.mem_cons_self
    have hrest := ih fun c hc => hpart c (List.mem_cons_of_mem a hc)
    cases cs with
    | nil => simp
    | cons d cs =>
      rw [List.map_cons, List.flatMap_cons, List.cons_prefix_cons]
      by_cases hd : IsAscii d
      · rw [utf8EncodeChar_of_isAscii hd, List.singleton_append, List.cons_prefix_cons,
          toUInt8_inj ha hd, hrest]
      · -- the first byte is one of a longer character
        refine iff_of_false ?_ (fun h => hd (h.1 ▸ ha))
        rcases hbytes : String.utf8EncodeChar d with - | ⟨b, bs⟩
        · exact fun _ => utf8EncodeChar_ne_nil d hbytes
        · intro h
          have hb : a.toUInt8 ∈ String.utf8EncodeChar d := by
            rw [hbytes, (List.cons_prefix_cons.mp h).1]
            exact List.mem_cons_self
          exact toUInt8_not_mem ha hd hb

/-- Nothing in ASCII reaches into the bytes of a longer character. -/
theorem eq_nil_of_subset {bs : Bytes} {d : Char} (hd : ¬ IsAscii d)
    (hbs : ∀ b ∈ bs, b.toNat < 128) (hsub : bs ⊆ String.utf8EncodeChar d) : bs = [] := by
  rw [List.eq_nil_iff_forall_not_mem]
  intro b hb
  exact absurd (hbs b hb) (Nat.not_lt.mpr (le_of_mem_utf8EncodeChar hd (hsub hb)))

theorem infix_utf8Encode_iff (hpart : AllAscii part) (cs : List Char) :
    part.map Char.toUInt8 <:+: cs.flatMap String.utf8EncodeChar ↔ part <:+: cs := by
  have hbytes : ∀ b ∈ part.map Char.toUInt8, b.toNat < 128 := by
    intro b hb
    obtain ⟨c, hc, rfl⟩ := List.mem_map.mp hb
    rw [toNat_toUInt8 (hpart c hc)]
    exact hpart c hc
  induction cs with
  | nil => simp
  | cons d cs ih =>
    rw [List.infix_cons_iff, ← prefix_utf8Encode_iff hpart, ih.symm, List.flatMap_cons]
    by_cases hd : IsAscii d
    · rw [utf8EncodeChar_of_isAscii hd, List.singleton_append, List.infix_cons_iff]
    · constructor
      · intro h
        rcases List.infix_append_iff.mp h with h | h | ⟨before, after, heq, hbefore, hafter⟩
        · rw [eq_nil_of_subset hd hbytes h.subset]
          exact .inl List.nil_prefix
        · exact .inr h
        · -- what lies within the first character is nothing
          have hnil : before = [] := eq_nil_of_subset hd
            (fun b hb => hbytes b (heq ▸ List.mem_append_left _ hb)) hbefore.subset
          rw [heq, hnil, List.nil_append]
          exact .inr hafter.isInfix
      · rintro (h | h)
        · exact h.isInfix
        · exact h.trans (List.suffix_append _ _).isInfix

/-- A part in ASCII occurs in a text exactly if its bytes occur in those of the
text. -/
theorem infix_ofText_iff {part s : String} (hpart : AllAscii part.toList) :
    ofText part <:+: ofText s ↔ part.toList <:+: s.toList := by
  rw [ofText_eq, ofText_eq, flatMap_utf8EncodeChar_of_isAscii hpart, infix_utf8Encode_iff hpart]

end Bytes

end WorkspaceAudit
