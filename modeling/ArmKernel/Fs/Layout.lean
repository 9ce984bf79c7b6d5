import ArmKernel.Fs.Types

/-! Reading back what was stored: superblock fields, inode slots and directory
slots of a block are independent of one another. -/
namespace ArmKernel.Fs

open Lib Lib.Bytes

namespace SuperBlock

variable (fs : SuperBlock) (h a : UInt32) (i j : Nat)

@[simp] theorem fsFdbhead_setFdbhead : fsFdbhead (setFdbhead fs h) = h :=
  word_setWord_self fs h (by omega)

@[simp] theorem fsFdb_setFdbhead : fsFdb (setFdbhead fs h) j = fsFdb fs j :=
  word_setWord_ne fs h (by omega)

@[simp] theorem fsFdbhead_setFdb : fsFdbhead (setFdb fs i a) = fsFdbhead fs :=
  word_setWord_ne fs a (by omega)

theorem fsFdb_setFdb_self (hi : i < 64) : fsFdb (setFdb fs i a) i = a :=
  word_setWord_self fs a (by omega)

theorem fsFdb_setFdb_ne (hj : j ≠ i) : fsFdb (setFdb fs i a) j = fsFdb fs j :=
  word_setWord_ne fs a (by omega)

theorem fsFdb_loadFdb (block : Block) (hj : j < 64) : fsFdb (loadFdb fs block) j = word block j := by
  unfold fsFdb loadFdb
  rw [word_ofWords _ (by omega), if_pos (by omega)]
  congr 1
  omega

theorem word_fdbBytes (hj : j < 64) : word (fdbBytes fs) j = fsFdb fs j :=
  word_ofWords _ (by omega)

/-- The first seven words, which no free-list update but `fs_fdbhead` touches. -/
def Header (fs fs' : SuperBlock) : Prop := ∀ i < 6, word fs' i = word fs i

theorem header_setFdbhead : Header fs (setFdbhead fs h) :=
  fun _ hi => word_setWord_ne fs h (by omega)

theorem header_setFdb : Header fs (setFdb fs i a) :=
  fun _ hi => word_setWord_ne fs a (by omega)

theorem header_loadFdb (block : Block) : Header fs (loadFdb fs block) := by
  intro k hk
  unfold loadFdb
  rw [word_ofWords _ (by omega), if_neg (by omega)]

theorem Header.trans {fs fs' fs'' : SuperBlock} (h : Header fs fs') (h' : Header fs' fs'') :
    Header fs fs'' := fun i hi => (h' i hi).trans (h i hi)

end SuperBlock

namespace ICommon

variable (ic : ICommon) (a : UInt32) {i j : Nat}

@[simp] theorem icMode_setDb : (ic.setDb i a).icMode = ic.icMode := rfl
@[simp] theorem icSize_setDb : (ic.setDb i a).icSize = ic.icSize := rfl
@[simp] theorem ib_setDb : (ic.setDb i a).ib j = ic.ib j := rfl
@[simp] theorem icMode_setIb : (ic.setIb i a).icMode = ic.icMode := rfl
@[simp] theorem icSize_setIb : (ic.setIb i a).icSize = ic.icSize := rfl
@[simp] theorem db_setIb : (ic.setIb i a).db j = ic.db j := rfl

theorem db_setDb_self (hi : i < 11) : (ic.setDb i a).db i = a := by
  simp [db, setDb, hi]

theorem db_setDb_ne (h : j ≠ i) : (ic.setDb i a).db j = ic.db j := by
  simp [db, setDb, Vector.getElem?_setIfInBounds_ne h.symm]

theorem ib_setIb_self (hi : i < 3) : (ic.setIb i a).ib i = a := by
  simp [ib, setIb, hi]

end ICommon

theorem ICommon.ext_words {x y : ICommon} (h : ∀ i < 16, x.toWord i = y.toWord i) : x = y := by
  have hm := h 0 (by omega)
  have hs := h 1 (by omega)
  cases x with
  | mk xm xs xd xi =>
    cases y with
    | mk ym ys yd yi =>
      simp only [toWord] at hm hs
      have hd : xd = yd := by
        apply Vector.ext
        intro i hi
        have := h (i+2) (by omega)
        simpa [toWord, db, hi, show i+2 < 13 by omega, show ¬(i+2 = 1) by omega] using this
      have hib : xi = yi := by
        apply Vector.ext
        intro i hi
        have := h (i+13) (by omega)
        simpa [toWord, ib, hi, show ¬(i+13 < 13) by omega] using this
      simp_all

theorem toWord_getIc (b : Block) (r : Nat) {i : Nat} (hi : i < 16) :
    (getIc b r).toWord i = word b (16*r+i) := by
  unfold ICommon.toWord
  split
  · next h => simp [getIc, h]
  · split
    · next h => simp [getIc, h]
    · split
      · next h0 h1 h13 =>
        have : i - 2 < 11 := by omega
        simp only [getIc, ICommon.db, Vector.getElem?_ofFn, this, dite_true, Option.getD_some]
        congr 1
        omega
      · next h0 h1 h13 =>
        have : i - 13 < 3 := by omega
        simp only [getIc, ICommon.ib, Vector.getElem?_ofFn, this, dite_true, Option.getD_some]
        congr 1
        omega

theorem word_setIc (b : Block) {r i : Nat} (ic : ICommon) (hi : i < 128) :
    word (setIc b r ic) i = if i / 16 = r then ic.toWord (i % 16) else word b i :=
  word_ofWords _ (by omega)

theorem getIc_setIc_self (b : Block) {r : Nat} (ic : ICommon) (hr : r < 8) :
    getIc (setIc b r ic) r = ic := by
  apply ICommon.ext_words
  intro i hi
  rw [toWord_getIc _ _ hi, word_setIc _ _ (by omega), if_pos (by omega), show (16*r+i) % 16 = i by omega]

theorem getIc_setIc_ne (b : Block) {r q : Nat} (ic : ICommon) (hq : q < 8) (h : q ≠ r) :
    getIc (setIc b r ic) q = getIc b q := by
  apply ICommon.ext_words
  intro i hi
  rw [toWord_getIc _ _ hi, toWord_getIc _ _ hi, word_setIc _ _ (by omega), if_neg (by omega)]

theorem setIc_getIc (b : Block) (r : Nat) : setIc b r (getIc b r) = b := by
  apply ext_word (m := 128)
  intro i hi
  rw [word_setIc _ _ hi]
  split
  · rw [toWord_getIc _ _ (by omega)]
    congr 1
    omega
  · rfl

/-! Directory slots. -/

theorem DirEnt.ext_bytes {x y : DirEnt} (h : ∀ k < 32, x.toByte k = y.toByte k) : x = y := by
  have hi : x.dIno = y.dIno := by
    have hb : ∀ k < 4, leByte x.dIno k = leByte y.dIno k := fun k hk => by
      simpa [toByte, hk] using h k (by omega)
    rw [← leWord_leByte x.dIno, ← leWord_leByte y.dIno, hb 0 (by omega), hb 1 (by omega),
      hb 2 (by omega), hb 3 (by omega)]
  have hl : x.dNamlen = y.dNamlen := by
    have h4 := congrArg UInt8.toNat (h 4 (by omega))
    have h5 := congrArg UInt8.toNat (h 5 (by omega))
    have hx := x.dNamlen.toNat_lt
    have hy := y.dNamlen.toNat_lt
    simp [toByte] at h4 h5
    apply UInt16.toNat_inj.mp
    omega
  have hn : x.dName = y.dName := by
    apply Vector.ext
    intro k hk
    have := h (k+6) (by omega)
    simpa [toByte, hk, show ¬(k+6 < 4) by omega, show ¬(k+6 = 4) by omega,
      show ¬(k+6 = 5) by omega] using this
  cases x
  cases y
  simp_all

theorem toByte_getDir (b : Block) (j : Nat) {k : Nat} (hk : k < 32) :
    (getDir b j).toByte k = byte b (32*j+k) := by
  unfold DirEnt.toByte
  split
  · next h =>
    simp only [getDir]
    rw [leByte_word _ _ h]
    congr 1
    omega
  · split
    · next h =>
      subst h
      apply UInt8.toNat_inj.mp
      have h4 := (byte b (32*j+4)).toNat_lt
      have h5 := (byte b (32*j+5)).toNat_lt
      simp [getDir]
    · split
      · next h =>
        subst h
        apply UInt8.toNat_inj.mp
        have h4 := (byte b (32*j+4)).toNat_lt
        have h5 := (byte b (32*j+5)).toNat_lt
        simp [getDir]
        omega
      · have : k - 6 < 26 := by omega
        simp only [getDir, Vector.getElem?_ofFn, this, dite_true, Option.getD_some]
        congr 1
        omega

theorem getDir_congr {a b : Block} {i j : Nat} (h : ∀ k < 32, byte a (32*i+k) = byte b (32*j+k)) :
    getDir a i = getDir b j := by
  apply DirEnt.ext_bytes
  intro k hk
  rw [toByte_getDir _ _ hk, toByte_getDir _ _ hk, h k hk]

theorem byte_setDir (b : Block) {j k : Nat} (e : DirEnt) (hk : k < 512) :
    byte (setDir b j e) k = if k / 32 = j then e.toByte (k % 32) else byte b k :=
  byte_tabulate _ hk

theorem getDir_setDir_self (b : Block) {j : Nat} (e : DirEnt) (hj : j < 16) :
    getDir (setDir b j e) j = e := by
  apply DirEnt.ext_bytes
  intro k hk
  rw [toByte_getDir _ _ hk, byte_setDir _ _ (by omega), if_pos (by omega), show (32*j+k) % 32 = k by omega]

theorem getDir_setDir_ne (b : Block) {i j : Nat} (e : DirEnt) (hi : i < 16) (h : i ≠ j) :
    getDir (setDir b j e) i = getDir b i :=
  getDir_congr fun k hk => by rw [byte_setDir _ _ (by omega), if_neg (by omega)]

end ArmKernel.Fs
