import Mathlib.Data.Nat.Basic
import Mathlib.Tactic.Linarith

/-! Fixed-length byte buffers with a little-endian 32-bit word view. Reads are
total (zero past the end) and every write is a `tabulate`, so that buffers are
compared byte by byte or, when the length is a whole number of words, word by
word. Nothing here knows what the bytes mean. -/
namespace ArmKernel.Lib

abbrev Bytes (n : Nat) := Vector UInt8 n

namespace Bytes

def byte (b : Bytes n) (i : Nat) : UInt8 := b[i]?.getD 0

def tabulate (n : Nat) (f : Nat → UInt8) : Bytes n := Vector.ofFn fun i => f i.val

theorem byte_tabulate (f : Nat → UInt8) {i : Nat} (hi : i < n) : byte (tabulate n f) i = f i := by
  simp [byte, tabulate, hi]

theorem byte_of_le (b : Bytes n) {i : Nat} (hi : n ≤ i) : byte b i = 0 := by
  simp [byte, Nat.not_lt.mpr hi]

theorem ext_byte {a b : Bytes n} (h : ∀ i < n, byte a i = byte b i) : a = b := by
  apply Vector.ext
  intro i hi
  simpa [byte, hi] using h i hi

/-! Four bytes and a word. -/

def leWord (b0 b1 b2 b3 : UInt8) : UInt32 :=
  UInt32.ofNat (b0.toNat + 256 * b1.toNat + 65536 * b2.toNat + 16777216 * b3.toNat)

def leByte (w : UInt32) (k : Nat) : UInt8 := UInt8.ofNat (w.toNat / 256 ^ k)

theorem leWord_leByte (w : UInt32) :
    leWord (leByte w 0) (leByte w 1) (leByte w 2) (leByte w 3) = w := by
  apply UInt32.toNat_inj.mp
  have hw := w.toNat_lt
  simp only [leWord, leByte, UInt8.toNat_ofNat', UInt32.toNat_ofNat', Nat.reducePow] at *
  omega

theorem leByte_leWord (b0 b1 b2 b3 : UInt8) :
    leByte (leWord b0 b1 b2 b3) 0 = b0 ∧ leByte (leWord b0 b1 b2 b3) 1 = b1 ∧
      leByte (leWord b0 b1 b2 b3) 2 = b2 ∧ leByte (leWord b0 b1 b2 b3) 3 = b3 := by
  have h0 := b0.toNat_lt
  have h1 := b1.toNat_lt
  have h2 := b2.toNat_lt
  have h3 := b3.toNat_lt
  simp only [Nat.reducePow] at h0 h1 h2 h3
  refine ⟨?_, ?_, ?_, ?_⟩ <;> apply UInt8.toNat_inj.mp <;>
    simp only [leWord, leByte, UInt8.toNat_ofNat', UInt32.toNat_ofNat', Nat.reducePow] <;> omega

def word (b : Bytes n) (i : Nat) : UInt32 :=
  leWord (byte b (4*i)) (byte b (4*i+1)) (byte b (4*i+2)) (byte b (4*i+3))

theorem leByte_word (b : Bytes n) (i : Nat) {k : Nat} (hk : k < 4) :
    leByte (word b i) k = byte b (4*i+k) := by
  have h := leByte_leWord (byte b (4*i)) (byte b (4*i+1)) (byte b (4*i+2)) (byte b (4*i+3))
  unfold word
  match k, hk with
  | 0, _ => exact h.1
  | 1, _ => exact h.2.1
  | 2, _ => exact h.2.2.1
  | 3, _ => exact h.2.2.2

theorem word_congr {a : Bytes n} {b : Bytes m} {i j : Nat}
    (h : ∀ k < 4, byte a (4*i+k) = byte b (4*j+k)) : word a i = word b j := by
  have h0 := h 0 (by omega)
  have h1 := h 1 (by omega)
  have h2 := h 2 (by omega)
  have h3 := h 3 (by omega)
  simp only [Nat.add_zero] at h0
  simp only [word, h0, h1, h2, h3]

theorem word_of_le (b : Bytes n) {i : Nat} (hi : n ≤ 4*i) : word b i = 0 := by
  simp [word, byte_of_le b (show n ≤ 4*i from hi), byte_of_le b (show n ≤ 4*i+1 by omega),
    byte_of_le b (show n ≤ 4*i+2 by omega), byte_of_le b (show n ≤ 4*i+3 by omega), leWord]

theorem ext_word {a b : Bytes (4*m)} (h : ∀ i < m, word a i = word b i) : a = b := by
  apply ext_byte
  intro i hi
  have hk : i % 4 < 4 := Nat.mod_lt _ (by omega)
  have he : 4*(i/4) + i%4 = i := by omega
  rw [← he, ← leByte_word a _ hk, ← leByte_word b _ hk, h (i/4) (by omega)]

/-! Writes. -/

def ofWords (n : Nat) (f : Nat → UInt32) : Bytes n :=
  tabulate n fun k => leByte (f (k/4)) (k%4)

theorem word_ofWords (f : Nat → UInt32) {i : Nat} (hi : 4*i+4 ≤ n) : word (ofWords n f) i = f i := by
  have hb : ∀ k < 4, byte (ofWords n f) (4*i+k) = leByte (f i) k := by
    intro k hk
    rw [ofWords, byte_tabulate _ (by omega), show (4*i+k)/4 = i by omega,
      show (4*i+k)%4 = k by omega]
  have h0 := hb 0 (by omega)
  simp only [Nat.add_zero] at h0
  rw [word, h0, hb 1 (by omega), hb 2 (by omega), hb 3 (by omega), leWord_leByte]

def setByte (b : Bytes n) (i : Nat) (x : UInt8) : Bytes n :=
  tabulate n fun k => if k = i then x else byte b k

theorem byte_setByte_self (b : Bytes n) {i : Nat} (x : UInt8) (hi : i < n) :
    byte (setByte b i x) i = x := by
  simp [setByte, byte_tabulate, hi]

theorem byte_setByte_ne (b : Bytes n) {i k : Nat} (x : UInt8) (h : k ≠ i) :
    byte (setByte b i x) k = byte b k := by
  by_cases hk : k < n
  · simp [setByte, byte_tabulate, hk, h]
  · rw [byte_of_le _ (by omega), byte_of_le _ (by omega)]

def setWord (b : Bytes n) (i : Nat) (w : UInt32) : Bytes n :=
  tabulate n fun k => if k/4 = i then leByte w (k%4) else byte b k

theorem byte_setWord_ne (b : Bytes n) {i k : Nat} (w : UInt32) (h : k/4 ≠ i) :
    byte (setWord b i w) k = byte b k := by
  by_cases hk : k < n
  · simp [setWord, byte_tabulate, hk, h]
  · rw [byte_of_le _ (by omega), byte_of_le _ (by omega)]

theorem word_setWord_self (b : Bytes n) {i : Nat} (w : UInt32) (hi : 4*i+4 ≤ n) :
    word (setWord b i w) i = w := by
  have hb : ∀ k < 4, byte (setWord b i w) (4*i+k) = leByte w k := by
    intro k hk
    rw [setWord, byte_tabulate _ (by omega), if_pos (by omega), show (4*i+k)%4 = k by omega]
  have h0 := hb 0 (by omega)
  simp only [Nat.add_zero] at h0
  rw [word, h0, hb 1 (by omega), hb 2 (by omega), hb 3 (by omega), leWord_leByte]

theorem word_setWord_ne (b : Bytes n) {i j : Nat} (w : UInt32) (h : j ≠ i) :
    word (setWord b i w) j = word b j :=
  word_congr fun k hk => byte_setWord_ne b w (by omega)

/-- Copy `xs` to offset `off`; what does not fit is dropped. -/
def putBytes (b : Bytes n) (off : Nat) (xs : List UInt8) : Bytes n :=
  tabulate n fun k => if off ≤ k ∧ k < off + xs.length then xs.getD (k - off) 0 else byte b k

theorem byte_putBytes_of_mem (b : Bytes n) {off k : Nat} (xs : List UInt8)
    (h : off ≤ k ∧ k < off + xs.length) (hk : k < n) :
    byte (putBytes b off xs) k = xs.getD (k - off) 0 := by
  rw [putBytes, byte_tabulate _ hk, if_pos h]

theorem byte_putBytes_of_not_mem (b : Bytes n) {off k : Nat} (xs : List UInt8)
    (h : ¬(off ≤ k ∧ k < off + xs.length)) : byte (putBytes b off xs) k = byte b k := by
  by_cases hk : k < n
  · rw [putBytes, byte_tabulate _ hk, if_neg h]
  · rw [byte_of_le _ (by omega), byte_of_le _ (by omega)]

theorem map_byte_putBytes (b : Bytes n) (xs : List UInt8) (h : xs.length ≤ n) :
    (List.range xs.length).map (byte (putBytes b 0 xs)) = xs := by
  apply List.ext_getElem (by simp)
  intro i hi hi'
  simp only [List.getElem_map, List.getElem_range]
  rw [byte_putBytes_of_mem b xs ⟨by omega, by omega⟩ (by omega)]
  simp [hi']

def overlay (b x : Bytes n) (m : Nat) : Bytes n :=
  tabulate n fun k => if k < m then byte x k else byte b k

theorem overlay_all (b x : Bytes n) {m : Nat} (h : n ≤ m) : overlay b x m = x := by
  apply ext_byte
  intro i hi
  rw [overlay, byte_tabulate _ hi, if_pos (by omega)]

theorem byte_overlay_lt (b x : Bytes n) {m k : Nat} (h : k < m) :
    byte (overlay b x m) k = byte x k := by
  by_cases hk : k < n
  · rw [overlay, byte_tabulate _ hk, if_pos h]
  · rw [byte_of_le _ (by omega), byte_of_le _ (by omega)]

theorem byte_overlay_ge (b x : Bytes n) {m k : Nat} (h : m ≤ k) :
    byte (overlay b x m) k = byte b k := by
  by_cases hk : k < n
  · rw [overlay, byte_tabulate _ hk, if_neg (by omega)]
  · rw [byte_of_le _ (by omega), byte_of_le _ (by omega)]

theorem word_overlay_lt (b x : Bytes n) {m i : Nat} (h : 4*i+4 ≤ m) :
    word (overlay b x m) i = word x i :=
  word_congr fun k hk => byte_overlay_lt b x (by omega)

-- everything after this file works through the lemmas above
attribute [irreducible] byte tabulate leWord leByte

end Bytes
end ArmKernel.Lib
