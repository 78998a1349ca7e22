import ArrayLang.Collections
import Mathlib.Data.List.Sort
import Mathlib.Data.String.Basic

/-!
# The order of texts is the order of their bytes

Texts are compared character by character. Their UTF-8 bytes come in the same order
(`Text.lt_iff_bytes_lt`), so a list that is sorted as texts is sorted as byte sequences.

After sorting, equal texts stand side by side. So dropping repeats leaves each text once
(`Text.inByteOrder_dropRepeats`), and the list is determined by the texts that are in it
(`Text.InByteOrder.eq_of_mem_iff`), whatever order they came in.
-/

namespace ArrayLang.Text

/-- The UTF-8 bytes of a text. -/
def bytes (s : String) : List UInt8 := s.toUTF8.data.toList

/-- A text is encoded character by character. -/
theorem bytes_eq_flatMap (s : String) : bytes s = s.toList.flatMap String.utf8EncodeChar := by
  rw [bytes, String.toUTF8_eq_toByteArray]
  conv_lhs => rw [← String.ofList_toList (s := s)]
  rw [String.toByteArray_ofList, List.utf8Encode, List.data_toByteArray, List.toList_toArray]

/-! ## Characters -/

theorem ofNat_lt_ofNat_iff {m n : Nat} (hm : m < 256) (hn : n < 256) :
    UInt8.ofNat m < UInt8.ofNat n ↔ m < n := by
  rw [UInt8.lt_iff_toNat_lt, UInt8.toNat_ofNat_of_lt' hm, UInt8.toNat_ofNat_of_lt' hn]

theorem ofNat_eq_ofNat_iff {m n : Nat} (hm : m < 256) (hn : n < 256) :
    UInt8.ofNat m = UInt8.ofNat n ↔ m = n := by
  rw [← UInt8.toNat_inj, UInt8.toNat_ofNat_of_lt' hm, UInt8.toNat_ofNat_of_lt' hn]

/-- Of two code points the smaller one has the smaller digit to base 64 at the first place where
they differ. -/
theorem digits_lt {m n : Nat} (h : m < n) (hbound : n < 1114112) :
    m / 262144 % 8 < n / 262144 % 8 ∨ m / 262144 % 8 = n / 262144 % 8 ∧
      (m / 4096 % 64 < n / 4096 % 64 ∨ m / 4096 % 64 = n / 4096 % 64 ∧
        (m / 64 % 64 < n / 64 % 64 ∨ m / 64 % 64 = n / 64 % 64 ∧ m % 64 < n % 64)) := by
  have hdigit : ∀ {m n : Nat}, m < n → m / 64 < n / 64 ∨ m / 64 = n / 64 ∧ m % 64 < n % 64 := by
    intro m n h
    omega
  have hquotient : ∀ k : Nat, k / 64 / 64 = k / 4096 ∧ k / 4096 / 64 = k / 262144 := by
    intro k
    omega
  have hlead : ∀ {k : Nat}, k < 1114112 → k / 262144 % 8 = k / 262144 := by
    intro k hk
    exact Nat.mod_eq_of_lt (by omega)
  rw [hlead (h.trans hbound), hlead hbound]
  obtain ⟨hm, hm'⟩ := hquotient m
  obtain ⟨hn, hn'⟩ := hquotient n
  rcases hdigit h with h | h
  · have h' := hdigit h
    rw [hm, hn] at h'
    rcases h' with h' | h'
    · have h'' := hdigit h'
      rw [hm', hn'] at h''
      omega
    · omega
  · omega

/-- The encoding of the smaller character comes first, whatever follows: a longer encoding has the
greater first byte, and encodings of one length hold the digits from the first one on. -/
theorem utf8EncodeChar_append_lt {c d : Char} (h : c < d) (xs ys : List UInt8) :
    String.utf8EncodeChar c ++ xs < String.utf8EncodeChar d ++ ys := by
  have hlt : c.val.toNat < d.val.toNat := h
  have hbound : d.val.toNat < 1114112 := by
    rcases d.valid with h | ⟨-, h⟩
    · exact Nat.lt_trans h (by decide)
    · exact h
  unfold String.utf8EncodeChar
  generalize c.val.toNat = m at *
  generalize d.val.toNat = n at *
  have hdigits := digits_lt hlt hbound
  dsimp only
  -- one goal for each pair of lengths
  split_ifs <;>
    simp (disch := omega) only [List.cons_append, List.cons_lt_cons_iff, ofNat_lt_ofNat_iff,
      ofNat_eq_ofNat_iff] <;> omega

/-- No character is encoded by nothing. -/
theorem utf8EncodeChar_ne_nil (c : Char) : String.utf8EncodeChar c ≠ [] := by
  unfold String.utf8EncodeChar
  dsimp only
  split_ifs <;> exact List.cons_ne_nil _ _

/-! ## Texts -/

/-- The encoding of lists of characters keeps their order, since it keeps that of characters and is
free of prefixes. -/
theorem flatMap_utf8EncodeChar_lt {xs ys : List Char} (h : xs < ys) :
    xs.flatMap String.utf8EncodeChar < ys.flatMap String.utf8EncodeChar := by
  induction h with
  | @nil c ys =>
      obtain ⟨b, bs, hb⟩ := List.exists_cons_of_ne_nil (utf8EncodeChar_ne_nil c)
      rw [List.flatMap_nil, List.flatMap_cons, hb]
      exact List.nil_lt_cons _ _
  | rel h => exact utf8EncodeChar_append_lt h _ _
  | cons h ih => exact List.append_left_lt ih

/-- **Comparing texts is comparing their bytes.** -/
theorem bytes_lt {a b : String} (h : a < b) : bytes a < bytes b := by
  rw [bytes_eq_flatMap, bytes_eq_flatMap]
  exact flatMap_utf8EncodeChar_lt (String.lt_iff_toList_lt.mp h)

/-- **Texts are in the order of their bytes.** -/
theorem lt_iff_bytes_lt {a b : String} : a < b ↔ bytes a < bytes b := by
  constructor
  · exact bytes_lt
  · intro h
    rcases lt_trichotomy a b with hlt | rfl | hgt
    · exact hlt
    · exact absurd h (List.lt_irrefl _)
    · exact absurd (bytes_lt hgt) (List.lt_asymm h)

/-! ## Sorted lists -/

/-- The texts are in the order of their bytes, each of them once. -/
def InByteOrder (l : List String) : Prop := l.Pairwise fun a b => bytes a < bytes b

/-- The sort puts texts in their order. -/
theorem pairwise_sortTexts (l : List String) : (sortTexts l).Pairwise (· ≤ ·) := by
  refine (List.pairwise_mergeSort ?_ ?_ l).imp fun h => of_decide_eq_true h
  · intro a b c hab hbc
    exact decide_eq_true ((of_decide_eq_true hab).trans (of_decide_eq_true hbc))
  · intro a b
    rw [Bool.or_eq_true, decide_eq_true_iff, decide_eq_true_iff]
    exact le_total a b

/-- Of a sorted list each text is kept once. -/
theorem pairwise_dropRepeats {l : List String} (h : l.Pairwise (· ≤ ·)) :
    (dropRepeats l).Pairwise (· < ·) := by
  fun_induction dropRepeats l with
  | case1 a l ih => exact ih (List.pairwise_cons.mp h).2
  | case2 a b l hab ih =>
      obtain ⟨hle, hrest⟩ := List.pairwise_cons.mp h
      have hlt : a < b := lt_of_le_of_ne (hle b List.mem_cons_self) hab
      refine .cons (fun c hc => ?_) (ih hrest)
      -- all that is kept behind the next text is at least that text
      rcases List.mem_cons.mp (mem_dropRepeats_iff.mp hc) with rfl | hc
      · exact hlt
      · exact hlt.trans_le ((List.pairwise_cons.mp hrest).1 c hc)
  | case3 l hshort =>
      rcases l with _ | ⟨a, _ | ⟨b, l⟩⟩
      · exact .nil
      · exact List.pairwise_singleton _ _
      · exact absurd rfl (hshort a b l)

/-- After the sort, repetitions are neighbours, so dropping those leaves an increasing list. -/
theorem inByteOrder_dropRepeats (l : List String) : InByteOrder (dropRepeats (sortTexts l)) :=
  (pairwise_dropRepeats (pairwise_sortTexts l)).imp lt_iff_bytes_lt.mp

/-- The order leaves no choice. -/
theorem InByteOrder.eq_of_mem_iff {l l' : List String} (h : InByteOrder l) (h' : InByteOrder l')
    (hmem : ∀ s, s ∈ l ↔ s ∈ l') : l = l' := by
  have hlt : l.Pairwise (· < ·) := h.imp lt_iff_bytes_lt.mpr
  have hlt' : l'.Pairwise (· < ·) := h'.imp lt_iff_bytes_lt.mpr
  exact hlt.eq_of_mem_iff hlt' hmem

end ArrayLang.Text
