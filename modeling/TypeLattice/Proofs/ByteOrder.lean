import Mathlib.Data.String.Basic
import TypeLattice.Node

namespace TypeLattice.Text

def bytes (s : String) : List UInt8 := s.toUTF8.data.toList

theorem bytes_eq (s : String) : bytes s = s.toList.flatMap String.utf8EncodeChar := by
  rw [bytes, String.toUTF8_eq_toByteArray, ← String.utf8Encode_toList, List.utf8Encode,
    List.toList_data_toByteArray]

theorem byte_lt {m n : Nat} (h : m < n) (hn : n < 256) : UInt8.ofNat m < UInt8.ofNat n :=
  (UInt8.ofNat_lt_iff_lt (Nat.lt_trans h hn) hn).2 h

/-- A number to base 64: the mark is added to its first digit, and `k` digits follow. -/
def digits (mark : Nat) : Nat → Nat → List UInt8
  | 0, v => [.ofNat (v + mark)]
  | k + 1, v => digits mark k (v / 64) ++ [.ofNat (v % 64 + 128)]

theorem digits_eq_cons (mark k v : Nat) :
    ∃ tail, digits mark k v = .ofNat (v / 64 ^ k + mark) :: tail := by
  induction k generalizing v with
  | zero => exact ⟨[], by rw [digits, Nat.pow_zero, Nat.div_one]⟩
  | succ k ih =>
      obtain ⟨tail, htail⟩ := ih (v / 64)
      refine ⟨tail ++ [.ofNat (v % 64 + 128)], ?_⟩
      rw [digits, htail, List.cons_append, Nat.div_div_eq_div_mul, Nat.pow_succ, Nat.mul_comm]

theorem digits_lt {mark k m n : Nat} (h : m < n) (hn : n / 64 ^ k + mark < 256)
    (xs ys : List UInt8) : digits mark k m ++ xs < digits mark k n ++ ys := by
  induction k generalizing m n xs ys with
  | zero =>
      rw [Nat.pow_zero, Nat.div_one] at hn
      exact .rel (byte_lt (by omega) hn)
  | succ k ih =>
      rw [digits, digits, List.append_assoc, List.append_assoc]
      by_cases hq : m / 64 < n / 64
      · apply ih hq
        rwa [Nat.div_div_eq_div_mul, Nat.mul_comm, ← Nat.pow_succ]
      · have heq : m / 64 = n / 64 := by omega
        rw [heq]
        exact List.append_left_lt (.rel (byte_lt (by omega) (by omega)))

inductive Form (v : Nat) : Nat → Nat → Prop
  | one (h : v < 0x80) : Form v 0 0
  | two (h : 0x80 ≤ v) (h' : v < 0x800) : Form v 0xc0 1
  | three (h : 0x800 ≤ v) (h' : v < 0x10000) : Form v 0xe0 2
  | four (h : 0x10000 ≤ v) (h' : v < 0x110000) : Form v 0xf0 3

theorem toNat_char_lt (c : Char) : c.toNat < 0x110000 := by
  rcases c.valid with h | h
  · exact Nat.lt_trans h (by decide)
  · exact h.2

theorem exists_form (c : Char) :
    ∃ mark k, Form c.toNat mark k ∧ String.utf8EncodeChar c = digits mark k c.toNat := by
  have hbound := toNat_char_lt c
  simp only [String.utf8EncodeChar, Char.toNat_val]
  generalize c.toNat = v at *
  split
  · next h => exact ⟨0, 0, .one (by omega), rfl⟩
  · split
    · next h =>
        refine ⟨0xc0, 1, .two (by omega) (by omega), ?_⟩
        rw [Nat.mod_eq_of_lt (by omega)]
        rfl
    · split
      · next h =>
          refine ⟨0xe0, 2, .three (by omega) (by omega), ?_⟩
          rw [Nat.mod_eq_of_lt (by omega : v / 4096 < 0x10)]
          simp [digits, Nat.div_div_eq_div_mul]
      · next h =>
          refine ⟨0xf0, 3, .four (by omega) (by omega), ?_⟩
          rw [Nat.mod_eq_of_lt (by omega : v / 262144 < 0x08)]
          simp [digits, Nat.div_div_eq_div_mul]

theorem Form.first_lt {v mark k : Nat} (h : Form v mark k) : v / 64 ^ k + mark < 256 := by
  cases h <;> omega

theorem Form.same_or_first_lt {m n mark mark' k k' : Nat} (hm : Form m mark k)
    (hn : Form n mark' k') (h : m < n) :
    mark = mark' ∧ k = k' ∨ m / 64 ^ k + mark < n / 64 ^ k' + mark' := by
  cases hm <;> cases hn <;> omega

theorem encodeChar_lt {c d : Char} (h : c < d) (xs ys : List UInt8) :
    String.utf8EncodeChar c ++ xs < String.utf8EncodeChar d ++ ys := by
  obtain ⟨mark, k, hm, hc⟩ := exists_form c
  obtain ⟨mark', k', hn, hd⟩ := exists_form d
  rw [hc, hd]
  rcases hm.same_or_first_lt hn h with ⟨rfl, rfl⟩ | hfirst
  · exact digits_lt h hn.first_lt xs ys
  · obtain ⟨tail, htail⟩ := digits_eq_cons mark k c.toNat
    obtain ⟨tail', htail'⟩ := digits_eq_cons mark' k' d.toNat
    rw [htail, htail']
    exact .rel (byte_lt hfirst hn.first_lt)

theorem encode_lt {cs ds : List Char} (h : cs < ds) :
    cs.flatMap String.utf8EncodeChar < ds.flatMap String.utf8EncodeChar := by
  induction h with
  | @nil d ds =>
      obtain ⟨mark, k, -, hd⟩ := exists_form d
      obtain ⟨tail, htail⟩ := digits_eq_cons mark k d.toNat
      rw [List.flatMap_nil, List.flatMap_cons, hd, htail]
      exact .nil
  | rel h => exact encodeChar_lt h _ _
  | cons _ ih => exact List.append_left_lt ih

/-- Texts are in order when their bytes are. -/
theorem bytes_lt_iff {s t : String} : bytes s < bytes t ↔ compare s t = .lt := by
  have hbytes {s t : String} (h : s < t) : bytes s < bytes t := by
    rw [bytes_eq, bytes_eq]
    exact encode_lt h
  have hcompare : compare s t = .lt ↔ s < t := compareOfLessAndEq_eq_lt
  rw [hcompare]
  refine ⟨fun h => ?_, hbytes⟩
  rcases lt_trichotomy s t with hst | rfl | hts
  · exact hst
  · exact absurd h (List.lt_irrefl _)
  · exact absurd h (List.lt_asymm (hbytes hts))

end TypeLattice.Text
