import ArmKernel.Core.DirectoryLookup
import ArmKernel.Core.Reset
import ArmKernel.Fs.Reclaim

/-! The life of a file: `open` creates it, `fwrite` and `lseek` fill it,
`close` stores its inode and `unlink` deletes it. The free list is then the
one before `open`, or some blocks short of it. -/
namespace ArmKernel.Core

open Lib Lib.Bytes Lib.Run Fs SuperBlock

inductive FileCall where
  | fwrite (data : Nat → UInt8) (n : UInt32)
  | lseek (offset : UInt32) (whence : Option Whence)

def fileStep (fd : Int) (k : Kernel) : FileCall → Kernel
  | .fwrite data n => (fwrite k fd data n).2
  | .lseek offset whence => (lseek k fd offset whence).2

def createDelete (k : Kernel) (path name : CStr) (calls : List FileCall) : Kernel :=
  match openFile k path .ocreat with
  | (fd, k) => (unlink (close (run (fileStep fd) k calls) fd).2 name).2

/-- Head position and size, as the calls alone decide them. -/
structure Extent where
  head : UInt32
  size : UInt32

def Extent.step (x : Extent) : FileCall → Extent
  | .fwrite _ n => ⟨x.head + n, if x.size < x.head + n then x.head + n else x.size⟩
  | .lseek offset (some .seekSet) => ⟨offset, x.size⟩
  | .lseek offset (some .seekCur) => ⟨x.head + offset, x.size⟩
  | .lseek offset (some .seekEnd) => ⟨x.size + offset, x.size⟩
  | .lseek _ none => x

def finalSize (calls : List FileCall) : Nat := (run Extent.step ⟨0, 0⟩ calls).size.toNat

/-- The blocks of a file of `size` bytes, with its index block. -/
def blocksOf (size : Nat) : Nat := blocksForRange 0 (size / 512 + 1)

theorem Extent.le_step (x : Extent) (c : FileCall) : x.size.toNat ≤ (x.step c).size.toNat := by
  unfold Extent.step
  split
  · dsimp only
    split
    · next h => exact le_of_lt (UInt32.lt_iff_toNat_lt.mp h)
    · exact le_refl _
  all_goals exact le_refl _

theorem Extent.le_run (x : Extent) (calls : List FileCall) :
    x.size.toNat ≤ (run Extent.step x calls).size.toNat := by
  induction calls generalizing x with
  | nil => exact le_refl _
  | cons c rest ih => exact (x.le_step c).trans (ih _)

theorem blocksOf_mono {a b : Nat} (h : a ≤ b) : blocksOf a ≤ blocksOf b := by
  unfold blocksOf
  rw [blocksToGrow_from_zero h]
  omega

/-! Creation. -/

/-- A consistent file system: the volume, the tables, and active inodes that
are live on disk. -/
structure Steady (own : Owners) (l : List UInt32) (k : Kernel) : Prop where
  disk : Consistent own k.vol l
  tables : Tables k
  stored : ∀ s, Active k s → (shape k.vol.disk).Live (k.ai s).iNumber
  cwd : (shape k.vol.disk).Dir k.cwd

/-- `path` leads to the working directory and on to a name that is not found
there. -/
structure NewName (k : Kernel) (path : CStr) (name : CStr) : Prop where
  path : ∃ dirs, tokens path = dirs ++ [name] ∧ walkPath k.vol rootDir dirs = k.cwd
  absent : nameToIno k.vol name (readInode k.vol ⟨0, 0, k.vol.stkIc⟩ k.cwd) = noAddr
  fits : NameFits name

/-! While the file is open. -/

/-- The new file `c` of the state `k₁` is open in slot `s` with `x` as its
extent; nothing else changed, and `l` is what it left of `N` free blocks. -/
structure Filling (k₁ : Kernel) (own₁ : Owners) (N : Nat) (fd : Int) (c : UInt32) (o s : Fin 128) (x : Extent)
    (own : Owners) (l : List UInt32) (k : Kernel) : Prop where
  good : Good own k.vol l
  ext : Ext own₁ own
  entry : ∃ i, fdEntry k fd = some (i, o)
  slot : inptr k o = some s
  head : (k.of o).oHead = x.head
  number : (k.ai s).iNumber = c
  regular : (k.ai s).iIc.icMode = Mode.ifreg.code
  links : (k.ai s).iLinks = 1
  size : (k.ai s).iIc.icSize = x.size
  maps : Maps own k.vol.disk c (k.ai s).iIc (blockCount (k.ai s).iIc)
  count : l.length + blocksOf x.size.toNat = N
  others : ∀ t, t ≠ s → k.ai t = k₁.ai t
  cwd : k.cwd = k₁.cwd
  inodes : ∀ j, j.toNat < 512 → j ≠ c → inodeAt k.vol.disk j = inodeAt k₁.vol.disk j
  frame : ∀ y j r, own₁ y = some (j, r) → j ≠ c → k.vol.disk y = k₁.vol.disk y

section

variable {k₁ k : Kernel} {own₁ own : Owners} {N : Nat} {fd : Int} {c : UInt32} {o s : Fin 128} {x : Extent}
  {l : List UInt32}

theorem Filling.fwrite (h : Filling k₁ own₁ N fd c o s x own l k) (hc : c.toNat < 512)
    (data : Nat → UInt8) (n : UInt32) (hsize : (x.step (.fwrite data n)).size.toNat < 139 * 512)
    (hroom : blocksOf (x.step (.fwrite data n)).size.toNat ≤ N) :
    ∃ own' l', Filling k₁ own₁ N fd c o s (x.step (.fwrite data n)) own' l' (fwrite k fd data n).2 := by
  obtain ⟨i, hfd⟩ := h.entry
  have hnum := h.number
  have hmax : (x.step (.fwrite data n)).size.toNat = max x.size.toNat (x.head + n).toNat := by
    unfold Extent.step
    dsimp only
    split
    · next hlt =>
      rw [UInt32.lt_iff_toNat_lt] at hlt
      omega
    · next hge =>
      rw [UInt32.lt_iff_toNat_lt] at hge
      omega
  rw [hmax] at hsize hroom
  have hs : Sound (fun _ => True) own k.vol l := ⟨h.good, fun _ _ _ => trivial⟩
  have hgrow := blocksToGrow_from_zero (Nat.le_max_left x.size.toNat (x.head + n).toNat)
  change blocksOf _ = blocksOf _ + _ at hgrow
  have hcount := h.count
  have hslot := h.slot
  rw [fwrite_eq data n hfd h.slot]
  obtain ⟨hlen, -⟩ | ⟨own', l', hlen, hnew, hst⟩ := fwrite_stored (fun _ _ _ _ => trivial) data hs
    (by rw [hnum]; exact hc) h.regular (by rw [hnum]; exact h.maps)
    (show ((k.of o).oHead + n).toNat < 139 * 512 by rw [h.head]; omega)
  · rw [h.size, h.head] at hlen
    omega
  rw [h.size, h.head] at hlen hnew
  rw [h.head] at hst ⊢
  set inode' := (growFor k.vol (k.ai s) x.head n).2.1 with hinode'
  obtain ⟨hsame₁, hsame₂, hsame₃⟩ := hst.same
  refine ⟨own', l', ?_⟩
  constructor
  · exact hst.sound.good
  · exact h.ext.trans hst.ext
  · exact ⟨i, hfd⟩
  · simpa [inptr] using hslot
  · simp [Extent.step]
  · simp only [Function.update_self]
    exact hsame₁.trans hnum
  · simp only [Function.update_self]
    exact hsame₃.trans h.regular
  · simp only [Function.update_self]
    exact hsame₂.trans h.links
  · simp only [Function.update_self]
    apply UInt32.toNat_inj.mp
    rw [hnew, hmax]
  · simp only [Function.update_self]
    have := hst.maps
    rwa [hsame₁, hnum] at this
  · rw [hmax]
    omega
  · intro t ht
    simp only [Function.update_of_ne ht]
    exact h.others t ht
  · exact h.cwd
  · intro j hj hne
    rw [hst.inodes j hj (by rw [hnum]; exact hne)]
    exact h.inodes j hj hne
  · intro y j r hy hne
    rw [hst.frame y j r (h.ext _ _ hy) (by rw [hnum]; exact hne)]
    exact h.frame y j r hy hne

theorem Filling.lseek (h : Filling k₁ own₁ N fd c o s x own l k) (offset : UInt32) (whence : Option Whence) :
    Filling k₁ own₁ N fd c o s (x.step (.lseek offset whence)) own l (lseek k fd offset whence).2 := by
  obtain ⟨i, hfd⟩ := h.entry
  have hslot := h.slot
  cases whence with
  | none =>
    have he : (Core.lseek k fd offset none).2 = k := by
      unfold Core.lseek
      rw [hfd]
    rw [he]
    exact h
  | some w =>
    have he : (Core.lseek k fd offset (some w)).2 = { k with
        of := Function.update k.of o { k.of o with oHead := (x.step (.lseek offset (some w))).head } } := by
      simp only [inptr] at hslot
      unfold Core.lseek
      rw [hfd]
      dsimp only
      rw [hslot]
      dsimp only
      rw [h.size, h.head]
      cases w <;> rfl
    rw [he]
    have hsize : (x.step (.lseek offset (some w))).size = x.size := by cases w <;> rfl
    refine ⟨h.good, h.ext, ⟨i, hfd⟩, ?_, by simp, h.number, h.regular, h.links, h.size.trans hsize.symm, h.maps,
      by rw [hsize]; exact h.count, h.others, h.cwd, h.inodes, h.frame⟩
    simpa [inptr] using hslot

theorem Filling.run (h : Filling k₁ own₁ N fd c o s x own l k) (hc : c.toNat < 512) (calls : List FileCall)
    (hsize : (run Extent.step x calls).size.toNat < 139 * 512)
    (hroom : blocksOf (Run.run Extent.step x calls).size.toNat ≤ N) :
    ∃ own' l', Filling k₁ own₁ N fd c o s (Run.run Extent.step x calls) own' l'
      (Run.run (fileStep fd) k calls) := by
  induction calls generalizing x own l k with
  | nil => exact ⟨own, l, h⟩
  | cons call rest ih =>
    have hle := (x.step call).le_run rest
    obtain ⟨own', l', h'⟩ : ∃ own' l', Filling k₁ own₁ N fd c o s (x.step call) own' l' (fileStep fd k call) := by
      cases call with
      | fwrite data n =>
        exact h.fwrite hc data n (lt_of_le_of_lt hle hsize) ((blocksOf_mono hle).trans hroom)
      | lseek offset whence => exact ⟨own, l, h.lseek offset whence⟩
    exact ih h' hsize hroom

end

/-- What `open` leaves when it creates a file in a directory with room. -/
structure Opened (own : Owners) (l : List UInt32) (k k₁ : Kernel) (name : CStr) (fd : Int) (c : UInt32)
    (own₁ : Owners) (l₁ : List UInt32) (o s : Fin 128) : Prop where
  lt : c.toNat < 512
  filling : Filling k₁ own₁ l.length fd c o s ⟨0, 0⟩ own₁ l₁ k₁
  ext : Ext (settled own k.vol l) own₁
  grown : (shape k.vol.disk).Grown (shape k₁.vol.disk) k.cwd c Mode.ifreg.code name
  aligned : (inodeAt k₁.vol.disk k.cwd).icSize.toNat % 32 = 0
  cwd : k₁.cwd = k.cwd
  alone : ∀ t, t ≠ s → Active k₁ t → (k₁.ai t).iNumber ≠ c
  inodes : ∀ j, j.toNat < 512 → j ≠ k.cwd → j ≠ c → inodeAt k₁.vol.disk j = inodeAt k.vol.disk j
  frame : ∀ x j r, settled own k.vol l x = some (j, r) → j ≠ k.cwd → k₁.vol.disk x = k.vol.disk x
  slots : ∀ t, t ≠ s → k₁.ai t = k.ai t

theorem Steady.opened {own : Owners} {l : List UInt32} {k : Kernel} (h : Steady own l k) {path name : CStr}
    (hnew : NewName k path name) (hpart : entryCount (inodeAt k.vol.disk k.cwd) % 16 ≠ 0) (hroom : l ≠ [])
    (hopen : (openFile k path .ocreat).1 ≠ -1) :
    ∃ fd k₁ c own₁ l₁ o s, openFile k path .ocreat = (fd, k₁) ∧ Opened own l k k₁ name fd c own₁ l₁ o s := by
  obtain ⟨⟨dirs, hpath, hwalk⟩, habsent, hfits⟩ := hnew
  have hcwd : k.cwd ≠ noAddr := by
    have hlt := (mode_of_dir h.cwd).1
    rintro he
    rw [he] at hlt
    exact absurd hlt (by decide)
  obtain ⟨inode, hcreate⟩ := pathToIno2_creates (show rootDir ≠ noAddr by decide) hpath hwalk hcwd habsent
  have hv : resolve k.vol path .ocreat = createFile k.vol inode k.cwd name := hcreate
  have hshort := hfits.short
  have hs : Sound (fun _ => True) (settled own k.vol l) k.vol l := ⟨h.disk.good.settled, fun _ _ _ => trivial⟩
  have hcase := createFile_extended (fun _ _ _ _ => trivial) hs inode h.cwd (h.disk.roomy h.cwd)
    (show name.length ≤ 26 by omega)
  have hfull := createFile_full h.disk.good.acct.formatted inode k.cwd name
  generalize createFile k.vol inode k.cwd name = r at hv hcase hfull
  obtain ⟨c, v⟩ := r
  dsimp only at hcase hfull
  rcases openFile_cases k path .ocreat hv rfl with ⟨-, he⟩ | ⟨i, -, -, he⟩ | ⟨i, -, -, he⟩ |
    ⟨i, s, o, -, hneg, hslot, ho, he⟩
  · rw [he] at hopen
    exact absurd rfl hopen
  · rw [he] at hopen
    exact absurd rfl hopen
  · rw [he] at hopen
    exact absurd rfl hopen
  obtain ⟨-, rfl | ⟨-, hzero⟩ | hall⟩ | ⟨own₁, l₁, ic, hlt, hmode, hsize, hlen, hs₁, hext⟩ := hcase
  · exact absurd rfl hroom
  · exact absurd hzero hpart
  · rw [hfull hall] at hneg
    exact absurd hneg (by decide)
  have hdead := hext.grown.dead
  -- the inode goes to an idle slot
  have hload : getAIT { k with vol := v } c = (some s, { k with
      vol := v, ai := Function.update k.ai s (readInode v (k.ai s) c) }) ∧ ¬Active k s := by
    rcases getAIT_cases { k with vol := v } c with ⟨hget, -⟩ | ⟨t, -, hn, hact⟩ | ⟨t, hget, hidle, -⟩
    · rw [hget] at hslot
      cases hslot
    · have hlive := h.stored t hact
      rw [show (k.ai t).iNumber = c from hn] at hlive
      exact absurd hlive hdead
    · rw [hget] at hslot
      obtain rfl := Option.some.inj hslot
      exact ⟨hget, hidle⟩
  obtain ⟨hget, hidle⟩ := hload
  rw [hget] at ho he
  dsimp only at ho he
  refine ⟨i.val, _, c, own₁, l₁, o, s, he, ?_⟩
  set k₁ := linkFile { k with vol := v, ai := Function.update k.ai s (readInode v (k.ai s) c) } i o s with hk₁
  have hself : k₁.ai s = ⟨c, 1, ic⟩ := by
    rw [hk₁]
    simp only [linkFile, Kernel.setPcb, Function.update_self]
    rw [readInode_eq hs₁.good.acct.formatted hlt, links_idle h.tables hidle, hext.self]
    rfl
  have hother : ∀ t, t ≠ s → k₁.ai t = k.ai t := by
    intro t ht
    simp [hk₁, linkFile, Kernel.setPcb, ht]
  have hhead : (k₁.of o).oHead = 0 := by
    have hidle' : (k.of o).oHead = 0 := h.tables.idle o (getOFT_some ho)
    simpa [hk₁, linkFile, Kernel.setPcb] using hidle'
  have hfd : fdEntry k₁ i.val = some (i, o) := by
    have hrange : (0 : Int) ≤ i.val ∧ (i.val : Int) < 16 := by omega
    unfold fdEntry
    rw [dif_pos hrange]
    simp [hk₁, linkFile, Kernel.setPcb, Kernel.self]
  refine ⟨hlt, ?_, hext.ext, hmode ▸ hext.grown, ?_, rfl, fun t ht hact hn => ?_, hext.inodes, hext.frame, hother⟩
  · constructor
    · exact hs₁.good
    · exact fun _ _ ho => ho
    · exact ⟨i, hfd⟩
    · simp [inptr, hk₁, linkFile, Kernel.setPcb]
    · exact hhead
    · rw [hself]
    · rw [hself]
      exact hmode
    · rw [hself]
    · rw [hself]
      exact hsize
    · rw [hself]
      have := hs₁.good.maps c hlt (by rw [hext.self, hmode]; decide)
      rwa [hext.self] at this
    · have := hlen hpart
      rw [this]
      rfl
    · exact fun _ _ => rfl
    · rfl
    · exact fun _ _ _ => rfl
    · exact fun _ _ _ _ _ => rfl
  · have := h.disk.aligned k.cwd h.cwd
    rw [show (inodeAt k₁.vol.disk k.cwd).icSize.toNat = _ from hext.size]
    omega
  · rw [Active, hother t ht] at hact
    rw [hother t ht] at hn
    have hlive := h.stored t hact
    rw [hn] at hlive
    exact hdead hlive

/-! Deletion. -/

/-- The file `c` of the state `k₁` is closed, with `n` bytes. -/
structure Closed (k₁ : Kernel) (own₁ : Owners) (N : Nat) (c : UInt32) (s : Fin 128) (n : UInt32)
    (own : Owners) (l : List UInt32) (k : Kernel) : Prop where
  good : Good own k.vol l
  ext : Ext own₁ own
  regular : (inodeAt k.vol.disk c).icMode = Mode.ifreg.code
  size : (inodeAt k.vol.disk c).icSize = n
  count : l.length + blocksOf n.toNat = N
  others : ∀ t, Active k t → t ≠ s ∧ k.ai t = k₁.ai t
  cwd : k.cwd = k₁.cwd
  inodes : ∀ j, j.toNat < 512 → j ≠ c → inodeAt k.vol.disk j = inodeAt k₁.vol.disk j
  frame : ∀ y j r, own₁ y = some (j, r) → j ≠ c → k.vol.disk y = k₁.vol.disk y

theorem Filling.close {k₁ k : Kernel} {own₁ own : Owners} {N : Nat} {fd : Int} {c : UInt32} {o s : Fin 128}
    {x : Extent} {l : List UInt32} (h : Filling k₁ own₁ N fd c o s x own l k) (hc : c.toNat < 512) :
    Closed k₁ own₁ N c s x.size own l (close k fd).2 := by
  obtain ⟨i, hfd⟩ := h.entry
  have hnum := h.number
  have hf := h.good.acct.formatted
  have hlast : (k.ai s).iLinks - 1 = 0 := by rw [h.links]; rfl
  rw [close_eq hfd h.slot]
  have hvol := vol_unlinkFile_last h.links i o
  have hcwd := cwd_unlinkFile k i o s
  have hlt : ({ k.ai s with iLinks := 0 } : INode).iNumber.toNat < 512 := by
    rw [show ({ k.ai s with iLinks := 0 } : INode).iNumber = c from hnum]
    exact hc
  have hself : inodeAt (writeInode k.vol { k.ai s with iLinks := 0 }).disk c = (k.ai s).iIc := by
    rw [← hnum]
    exact inodeAt_writeInode_self hf hlt
  refine ⟨?_, h.ext, ?_, ?_, h.count, fun t ht => ?_, hcwd.trans h.cwd, fun j hj hne => ?_,
    fun y j r hy hne => ?_⟩
  · rw [hvol]
    refine h.good.writeInode hlt fun _ => ?_
    rw [show ({ k.ai s with iLinks := 0 } : INode).iNumber = c from hnum]
    exact h.maps
  · rw [hvol, hself]
    exact h.regular
  · rw [hvol, hself]
    exact h.size
  · rcases active_unlinkFile_cases ht with ⟨-, hne, -⟩ | ⟨hts, hai, -⟩
    · exact absurd hlast hne
    · exact ⟨hts, hai.trans (h.others t hts)⟩
  · rw [hvol, inodeAt_writeInode_ne hf hlt hj (by rw [← hnum] at hne; exact hne)]
    exact h.inodes j hj hne
  · have hda := (h.good.acct.owned _ _ (h.ext _ _ hy)).1
    rw [hvol, writeInode_disk_ne hf hlt (hda.ne_inodeBlock hlt)]
    exact h.frame y j r hy hne

theorem absent_match {own : Owners} {v : Vol} {l : List UInt32} (h : Consistent own v l) {D : UInt32}
    (hD : (shape v.disk).Dir D) (hpart : entryCount (inodeAt v.disk D) % 16 ≠ 0) {name : CStr}
    (habsent : nameToIno v name (readInode v ⟨0, 0, v.stkIc⟩ D) = noAddr) {e : Nat}
    (he : e < entryCount (inodeAt v.disk D)) :
    nameMatch name (entryBlock v.disk (inodeAt v.disk D) e) (e % 16) = false := by
  obtain ⟨hlt, hmode⟩ := mode_of_dir hD
  have hm := h.good.maps D hlt (by rw [hmode]; decide)
  rw [readInode_eq h.good.acct.formatted hlt, nameToIno_find h.good.acct hm hmode, scanLimit_eq hpart] at habsent
  cases hfind : (List.range (entryCount (inodeAt v.disk D))).find? fun e =>
      nameMatch name (entryBlock v.disk (inodeAt v.disk D) e) (e % 16) with
  | none => simpa using List.find?_eq_none.mp hfind e (List.mem_range.mpr he)
  | some e' =>
    have hlive := h.tree.entry_live hD (List.mem_range.mp (List.find?_range_eq_some.mp hfind).2.1)
    rw [show ((fun e => nameMatch name (entryBlock v.disk (inodeAt v.disk D) e) (e % 16))) = _ from rfl,
      hfind, Option.map_some, Option.getD_some] at habsent
    have hlt := lt_of_live hlive
    change (dirEntry v.disk (inodeAt v.disk D) e').dIno.toNat < 512 at hlt
    rw [habsent] at hlt
    exact absurd hlt (by decide)

section

variable {own own₁ own₃ : Owners} {l l₁ l₃ : List UInt32} {k k₁ k₃ : Kernel} {path name : CStr} {fd : Int}
  {c n : UInt32} {o s : Fin 128} {N : Nat}

/-- The directory at the time of `unlink`: the new entry is the last one, and
the only one the name matches. -/
structure LastEntry (v : Vol) (p c : UInt32) (m : Nat) (name : CStr) : Prop where
  mode : (inodeAt v.disk p).icMode = Mode.ifdir.code
  aligned : (inodeAt v.disk p).icSize.toNat % 32 = 0
  count : entryCount (inodeAt v.disk p) = m + 1
  old : ∀ e < m, nameMatch name (entryBlock v.disk (inodeAt v.disk p) e) (e % 16) = false
  new : (dirEntry v.disk (inodeAt v.disk p) m).Is c name

theorem Steady.lastEntry (h : Steady own l k) (hnew : NewName k path name)
    (hpart : entryCount (inodeAt k.vol.disk k.cwd) % 16 ≠ 0)
    (ho : Opened own l k k₁ name fd c own₁ l₁ o s) (hc : Closed k₁ own₁ N c s n own₃ l₃ k₃) :
    LastEntry k₃.vol k.cwd c (entryCount (inodeAt k.vol.disk k.cwd)) name := by
  have hpc : k.cwd ≠ c := ho.grown.ne h.cwd.live
  obtain ⟨hplt, hmode⟩ := mode_of_dir (ho.grown.dir h.cwd)
  have hsame := hc.inodes k.cwd hplt hpc
  have hcount : entryCount (inodeAt k₁.vol.disk k.cwd) = entryCount (inodeAt k.vol.disk k.cwd) + 1 := by
    have := ho.grown.count k.cwd h.cwd
    rwa [if_pos rfl] at this
  -- nothing was written to the directory since
  have hentry : ∀ e < entryCount (inodeAt k₁.vol.disk k.cwd),
      dirEntry k₃.vol.disk (inodeAt k₃.vol.disk k.cwd) e = dirEntry k₁.vol.disk (inodeAt k₁.vol.disk k.cwd) e := by
    intro e he
    rw [hsame]
    have hm := ho.filling.good.maps k.cwd hplt (by rw [hmode]; decide)
    exact dirEntry_frame hm (div_lt_blockCount_of_entry hmode he) fun x r hx => hc.frame x _ r hx hpc
  refine ⟨by rw [hsame]; exact hmode, by rw [hsame]; exact ho.aligned, by rw [hsame]; exact hcount,
    fun e he => ?_, ?_⟩
  · rw [← absent_match h.disk h.cwd hpart hnew.absent he]
    apply nameMatch_congr hnew.fits.short
    exact (hentry e (by omega)).trans (ho.grown.old k.cwd e h.cwd he)
  · rw [hentry _ (by omega)]
    exact ho.grown.new

theorem LastEntry.match_new {v : Vol} {p : UInt32} {m : Nat} (h : LastEntry v p c m name) (hfits : NameFits name) :
    nameMatch name (entryBlock v.disk (inodeAt v.disk p) m) (m % 16) = true :=
  (nameMatch_iff h.new hfits hfits.string).mpr (.inl rfl)

theorem Closed.can_remove (h : Steady own l k) (ho : Opened own l k k₁ name fd c own₁ l₁ o s)
    (hc : Closed k₁ own₁ N c s n own₃ l₃ k₃) {child : DirEnt} (hchild : child.dIno = c) :
    removable k₃.vol k₃.cwd k₃.ai child ≠ noAddr := by
  have hpc : c ≠ k₃.cwd := by
    rw [hc.cwd, ho.cwd]
    exact (ho.grown.ne h.cwd.live).symm
  have hait : inAit k₃.ai c = false := by
    unfold inAit
    rw [List.any_eq_false]
    intro t _ hhit
    simp only [Bool.and_eq_true, beq_iff_eq, bne_iff_ne] at hhit
    obtain ⟨hts, hai⟩ := hc.others t hhit.2
    have hact : Active k₁ t := by
      rw [Active, ← hai]
      exact hhit.2
    exact ho.alone t hts hact (hai ▸ hhit.1)
  unfold Fs.removable
  rw [hchild, if_neg hpc, hait]
  dsimp only
  rw [readInode_eq hc.good.acct.formatted ho.lt, if_neg (by simp), if_neg]
  · exact ne_noAddr_of_lt ho.lt
  · rintro ⟨hdir, -⟩
    rw [show (inodeAt k₃.vol.disk c).icMode = _ from hc.regular] at hdir
    exact absurd hdir (by decide)

theorem Closed.scan (h : Steady own l k) (hnew : NewName k path name)
    (hpart : entryCount (inodeAt k.vol.disk k.cwd) % 16 ≠ 0)
    (ho : Opened own l k k₁ name fd c own₁ l₁ o s) (hc : Closed k₁ own₁ N c s n own₃ l₃ k₃) :
    scanDir k₃.vol ⟨k.cwd, 0, inodeAt k₃.vol.disk k.cwd⟩
      (fun dir j => nameMatch name dir j && removable k₃.vol k₃.cwd k₃.ai (getDir dir j) != noAddr)
      (scanPlan ((inodeAt k₃.vol.disk k.cwd).icSize.toNat / 32)) k₃.vol.stkBlk =
        if (entryCount (inodeAt k.vol.disk k.cwd) + 1) % 16 = 0 then none
        else some (mapAddr k₃.vol.disk (inodeAt k₃.vol.disk k.cwd) (entryCount (inodeAt k.vol.disk k.cwd) / 16),
          entryBlock k₃.vol.disk (inodeAt k₃.vol.disk k.cwd) (entryCount (inodeAt k.vol.disk k.cwd)),
          entryCount (inodeAt k.vol.disk k.cwd) % 16) := by
  have hlast := h.lastEntry hnew hpart ho hc
  exact remove_scan hc.good (mode_of_dir (ho.grown.dir h.cwd)).1 rfl hlast.mode hlast.count hlast.old
    (hlast.match_new hnew.fits) (hc.can_remove h ho hlast.new.ino)

theorem Closed.removeFromCwd_eq (h : Steady own l k) (ho : Opened own l k k₁ name fd c own₁ l₁ o s)
    (hc : Closed k₁ own₁ N c s n own₃ l₃ k₃) : removeFromCwd k₃ name =
      remove k₃.vol k₃.cwd k₃.ai (getDir k₃.vol.stkBlk 0) ⟨k.cwd, 0, inodeAt k₃.vol.disk k.cwd⟩ name := by
  unfold removeFromCwd
  rw [show k₃.cwd = k.cwd from hc.cwd.trans ho.cwd,
    readInode_eq hc.good.acct.formatted (mode_of_dir (ho.grown.dir h.cwd)).1]

theorem Closed.not_removed (h : Steady own l k) (hnew : NewName k path name)
    (hpart : entryCount (inodeAt k.vol.disk k.cwd) % 16 ≠ 0)
    (ho : Opened own l k k₁ name fd c own₁ l₁ o s) (hc : Closed k₁ own₁ N c s n own₃ l₃ k₃)
    (hfull : (entryCount (inodeAt k.vol.disk k.cwd) + 1) % 16 = 0) : (removeFromCwd k₃ name).ino = noAddr := by
  have hscan := hc.scan h hnew hpart ho
  rw [if_pos hfull] at hscan
  rw [hc.removeFromCwd_eq h ho]
  unfold remove
  dsimp only
  rw [hscan]

theorem Closed.removed (h : Steady own l k) (hnew : NewName k path name)
    (hpart : entryCount (inodeAt k.vol.disk k.cwd) % 16 ≠ 0)
    (ho : Opened own l k k₁ name fd c own₁ l₁ o s) (hc : Closed k₁ own₁ N c s n own₃ l₃ k₃)
    (hroom : (entryCount (inodeAt k.vol.disk k.cwd) + 1) % 16 ≠ 0) :
    (removeFromCwd k₃ name).ino = c ∧ (removeFromCwd k₃ name).child.dIno = c ∧
      Unlisted own₃ k₃.vol (removeFromCwd k₃ name).vol l₃ k.cwd (entryCount (inodeAt k.vol.disk k.cwd)) := by
  have hlast := h.lastEntry hnew hpart ho hc
  have hscan := hc.scan h hnew hpart ho
  let parent : INode := ⟨k.cwd, 0, inodeAt k₃.vol.disk k.cwd⟩
  have hnum : parent.iNumber = k.cwd := rfl
  have hun := unlist hc.good (mode_of_dir (ho.grown.dir h.cwd)).1 hnum rfl hlast.mode hlast.aligned
    (show entryCount (inodeAt k.vol.disk k.cwd) < _ by rw [hlast.count]; omega)
  rw [if_neg hroom] at hscan
  rw [hc.removeFromCwd_eq h ho]
  unfold remove
  dsimp only
  rw [hscan]
  exact ⟨hlast.new.ino, hlast.new.ino, hun⟩

theorem Closed.released (h : Steady own l k) (hnew : NewName k path name)
    (hpart : entryCount (inodeAt k.vol.disk k.cwd) % 16 ≠ 0)
    (ho : Opened own l k k₁ name fd c own₁ l₁ o s) (hc : Closed k₁ own₁ N c s n own₃ l₃ k₃)
    (hroom : (entryCount (inodeAt k.vol.disk k.cwd) + 1) % 16 ≠ 0) (hdot : name.head? ≠ some dot)
    (hok : ¬ReadsOverwritten (l₃.length % 64) ((n.toNat + 511) / 512)) :
    ∃ F, FreeList (unlink k₃ name).2.vol.disk (unlink k₃ name).2.vol.fs (F ++ l₃) ∧
      F.length = blocksForRange 0 ((n.toNat + 511) / 512) ∧ ∀ x ∈ F, ∃ r, own₃ x = some (c, r) := by
  obtain ⟨hino, hchild, hun⟩ := hc.removed h hnew hpart ho hroom
  have hpc : c ≠ k.cwd := (ho.grown.ne h.cwd.live).symm
  have hf := hun.good.acct.formatted
  have hsame := hun.inodes c ho.lt hpc
  have hm := hun.good.maps c ho.lt (by rw [hsame, hc.regular]; decide)
  rw [hsame, blockCount_regular hc.regular, hc.size] at hm
  have hsmall := hm.small
  unfold Core.unlink
  rw [if_neg hdot]
  dsimp only
  rw [if_pos (by rw [hino]; exact ne_noAddr_of_lt ho.lt), hchild, readInode_eq hf ho.lt, hsame]
  dsimp only
  set inode : INode := { (removeFromCwd k₃ name).parent with iNumber := c, iIc := inodeAt k₃.vol.disk c } with hinode
  have hsize : inode.iIc.icSize = n := hc.size
  have hmaps : Maps own₃ (removeFromCwd k₃ name).vol.disk c inode.iIc (n.toNat / 512 + 1) := hm
  obtain ⟨hf', hlist⟩ := freeDataBlocks_list hun.good.acct hmaps (by rw [hsize]; omega)
    (by rw [hsize, hun.good.acct.free.head_eq]; exact hok)
  rw [hsize] at hlist
  refine ⟨(releasedBefore ((n.toNat + 511) / 512)).map
    (placeAddr (removeFromCwd k₃ name).vol.disk inode.iIc), ?_, ?_, fun x hx => ?_⟩
  · rw [writeInode_fs]
    refine hlist.frame fun a ha => ?_
    exact writeInode_disk_ne hf' ho.lt ((hlist.area a ha).ne_inodeBlock ho.lt)
  · rw [List.length_map, length_releasedBefore_eq (by omega)]
  · obtain ⟨p, hp, rfl⟩ := List.mem_map.mp hx
    exact hm.owns ((mem_releasedBefore hp).mono (by omega))

end

/-! The whole life. -/

def SameFree (v v' : Vol) : Prop :=
  ∃ l l', FreeList v.disk v.fs l ∧ FreeList v'.disk v'.fs l' ∧ ∀ x, x ∈ l' ↔ x ∈ l

theorem not_sameFree_of_shorter {v v' : Vol} {l l' : List UInt32} (hl : FreeList v.disk v.fs l)
    (hl' : FreeList v'.disk v'.fs l') (hlt : l'.length < l.length) : ¬SameFree v v' := by
  rintro ⟨m, m', hm, hm', hsame⟩
  obtain rfl := hm.unique hl
  obtain rfl := hm'.unique hl'
  have hperm := (List.perm_ext_iff_of_nodup hm'.nodup hm.nodup).mpr hsame
  have := hperm.length_eq
  omega

theorem sameFree_of_subset {v v' : Vol} {l l' : List UInt32} (hl : FreeList v.disk v.fs l)
    (hl' : FreeList v'.disk v'.fs l') (hsub : l' ⊆ l) (hle : l.length ≤ l'.length) : SameFree v v' :=
  ⟨l, l', hl, hl', fun _ => ((hl'.nodup.subperm hsub).perm_of_length_le hle).mem_iff⟩

theorem Steady.life {own : Owners} {l : List UInt32} {k : Kernel} (h : Steady own l k) {path name : CStr}
    (hnew : NewName k path name) (hpart : entryCount (inodeAt k.vol.disk k.cwd) % 16 ≠ 0)
    (hopen : (openFile k path .ocreat).1 ≠ -1) {calls : List FileCall}
    (hroom : blocksOf (finalSize calls) ≤ l.length) (hsize : finalSize calls < 139 * 512) :
    ∃ fd k₁ c own₁ l₁ o s own₃ l₃ k₃, createDelete k path name calls = (unlink k₃ name).2 ∧
      Opened own l k k₁ name fd c own₁ l₁ o s ∧
      Closed k₁ own₁ l.length c s (run Extent.step ⟨0, 0⟩ calls).size own₃ l₃ k₃ := by
  have hne : l ≠ [] := by
    rintro rfl
    unfold blocksOf at hroom
    rw [blocksForRange_zero] at hroom
    exact absurd hroom (by simp)
  obtain ⟨fd, k₁, c, own₁, l₁, o, s, he, ho⟩ := h.opened hnew hpart hne hopen
  obtain ⟨own₃, l₃, hfill⟩ := ho.filling.run ho.lt calls hsize hroom
  refine ⟨fd, k₁, c, own₁, l₁, o, s, own₃, l₃, _, ?_, ho, hfill.close ho.lt⟩
  unfold createDelete
  rw [he]

theorem Steady.leaks {own : Owners} {l : List UInt32} {k : Kernel} (h : Steady own l k) {path name : CStr}
    (hnew : NewName k path name) (hpart : entryCount (inodeAt k.vol.disk k.cwd) % 16 ≠ 0)
    (hopen : (openFile k path .ocreat).1 ≠ -1) {calls : List FileCall}
    (hroom : blocksOf (finalSize calls) ≤ l.length) (hsize : finalSize calls < 139 * 512)
    (hok : ¬ReadsOverwritten ((l.length - blocksOf (finalSize calls)) % 64) ((finalSize calls + 511) / 512))
    (hlast : (entryCount (inodeAt k.vol.disk k.cwd) + 1) % 16 ≠ 0) (hdot : name.head? ≠ some dot)
    (hzero : finalSize calls % 512 = 0) : ¬SameFree k.vol (createDelete k path name calls).vol := by
  obtain ⟨fd, k₁, c, own₁, l₁, o, s, own₃, l₃, k₃, he, ho, hc⟩ := h.life hnew hpart hopen hroom hsize
  have hcount : l₃.length + blocksOf (finalSize calls) = l.length := hc.count
  rw [show l.length - blocksOf (finalSize calls) = l₃.length by omega] at hok
  obtain ⟨F, hlist, hlen, -⟩ := hc.released h hnew hpart ho hlast hdot hok
  have hblocks : blocksOf (finalSize calls) =
      blocksForRange 0 ((finalSize calls + 511) / 512) + blocksFor (finalSize calls / 512) := by
    rw [show (finalSize calls + 511) / 512 = finalSize calls / 512 by omega, ← blocksForRange_succ]
    rfl
  have hpos : 1 ≤ blocksFor (finalSize calls / 512) := by
    unfold blocksFor
    split <;> omega
  change F.length = blocksForRange 0 ((finalSize calls + 511) / 512) at hlen
  rw [he]
  exact not_sameFree_of_shorter h.disk.good.acct.free hlist (by rw [List.length_append]; omega)

theorem Closed.not_sameFree {own own₁ own₃ : Owners} {l l₃ : List UInt32} {k k₁ k₃ : Kernel} {name : CStr}
    {c n : UInt32} {s : Fin 128} (h : Steady own l k) (hc : Closed k₁ own₁ l.length c s n own₃ l₃ k₃)
    (hkept : (unlink k₃ name).2 = k₃) : ¬SameFree k.vol (unlink k₃ name).2.vol := by
  have hcount := hc.count
  have hpos : 1 ≤ blocksOf n.toNat := by
    unfold blocksOf
    rw [blocksForRange_zero]
    omega
  rw [hkept]
  exact not_sameFree_of_shorter h.disk.good.acct.free hc.good.acct.free (by omega)

/-- **Creating and deleting a file is block-neutral exactly when its size is no
multiple of a block, its entry does not fill the directory's last block, and
its name does not start with a dot.** This is for every consistent state, every
new name in the working directory and every sequence of writes and seeks for
which there are blocks, as long as the file stays below the double indirect
range and deletion does not read through a block the list was written to. -/
theorem create_delete_neutral_iff (own : Owners) (l : List UInt32) (k : Kernel) (h : Steady own l k)
    (path name : CStr) (hnew : NewName k path name) (hpart : entryCount (inodeAt k.vol.disk k.cwd) % 16 ≠ 0)
    (hopen : (openFile k path .ocreat).1 ≠ -1) (calls : List FileCall)
    (hroom : blocksOf (finalSize calls) ≤ l.length) (hsize : finalSize calls < 139 * 512)
    (hok : ¬ReadsOverwritten ((l.length - blocksOf (finalSize calls)) % 64) ((finalSize calls + 511) / 512)) :
    SameFree k.vol (createDelete k path name calls).vol ↔
      finalSize calls % 512 ≠ 0 ∧ (entryCount (inodeAt k.vol.disk k.cwd) + 1) % 16 ≠ 0 ∧
        name.head? ≠ some dot := by
  obtain ⟨fd, k₁, c, own₁, l₁, o, s, own₃, l₃, k₃, he, ho, hc⟩ := h.life hnew hpart hopen hroom hsize
  constructor
  · intro hsame
    have hdot : name.head? ≠ some dot := by
      intro hdot
      rw [he] at hsame
      refine hc.not_sameFree h ?_ hsame
      unfold unlink
      rw [if_pos hdot]
    have hlast : (entryCount (inodeAt k.vol.disk k.cwd) + 1) % 16 ≠ 0 := by
      intro hfull
      have hno := hc.not_removed h hnew hpart ho hfull
      rw [he] at hsame
      refine hc.not_sameFree h ?_ hsame
      unfold unlink
      rw [if_neg hdot]
      dsimp only
      rw [if_neg fun hn => hn hno]
    exact ⟨fun hzero => h.leaks hnew hpart hopen hroom hsize hok hlast hdot hzero hsame, hlast, hdot⟩
  · rintro ⟨hmod, hlast, hdot⟩
    have hcount : l₃.length + blocksOf (finalSize calls) = l.length := hc.count
    rw [show l.length - blocksOf (finalSize calls) = l₃.length by omega] at hok
    obtain ⟨F, hlist, hlen, hown⟩ := hc.released h hnew hpart ho hlast hdot hok
    have hblocks : blocksOf (finalSize calls) = blocksForRange 0 ((finalSize calls + 511) / 512) := by
      rw [show (finalSize calls + 511) / 512 = finalSize calls / 512 + 1 by omega]
      rfl
    change F.length = blocksForRange 0 ((finalSize calls + 511) / 512) at hlen
    rw [he]
    refine sameFree_of_subset h.disk.good.acct.free hlist (fun x hx => ?_) (by rw [List.length_append]; omega)
    refine mem_of_settled (fun y o hy => hc.ext _ _ (ho.ext _ _ hy)) (fun a o ha => (hc.good.acct.owned a o ha).2)
      (hlist.area x hx) ho.lt ho.grown.dead ?_
    obtain hx | hx := List.mem_append.mp hx
    · exact .inr (hown x hx)
    · exact .inl hx

/-! A machine with an empty root directory. -/

def rootKernel (v : Vol) : Kernel := powerOn v ⟨0, 0, fun _ => 0⟩

section

variable {v : Vol} {a : UInt32} {l : List UInt32}

theorem Blank.steady (hb : Blank 64 a v l) :
    Steady (Function.update (fun _ => none) a (some (rootDir, .data 0))) l (rootKernel v) := by
  have hidle : Idle (rootKernel v) := ⟨fun _ => ⟨rfl, rfl⟩, fun _ => rfl, fun _ _ => rfl⟩
  exact ⟨hb.consistent, hidle.tables, fun s hs => absurd (hidle.ai s).2 hs,
    dir_of_mode (show rootDir.toNat < 512 by decide) hb.mode⟩

theorem newName_rootKernel (hl : Lists v rootDir [(rootDir, [dot])]) : NewName (rootKernel v) [97] [97] := by
  refine ⟨⟨[], by decide, rfl⟩, ?_, by decide, by decide, by decide⟩
  have hlookup := hl.lookup [97]
  have hmiss : nameMatch [97] (entryBlock v.disk (inodeAt v.disk rootDir) 0) (0 % 16) = false := by
    rw [Bool.eq_false_iff, ne_eq, hl.match_iff rfl (by decide)]
    rintro (heq | ⟨hlt, -⟩)
    · exact absurd heq (by decide)
    · exact absurd hlt (by decide)
  rw [show List.range (scanLimit ([(rootDir, [dot])] : List (UInt32 × CStr)).length) = [0] from rfl,
    List.find?_singleton, hmiss] at hlookup
  exact hlookup

theorem openFile_rootKernel {inode : INode} (hcreate : pathToIno2 v [97] rootDir = createFile v inode rootDir [97])
    (hlt : (createFile v inode rootDir [97]).1.toNat < 512) : (openFile (rootKernel v) [97] .ocreat).1 = 0 := by
  have hneg := isNeg_of_lt hlt
  have hfd : getFD (rootKernel v) = some 0 := rfl
  unfold openFile
  rw [hfd, show resolve (rootKernel v).vol [97] .ocreat = createFile v inode rootDir [97] from hcreate]
  generalize createFile v inode rootDir [97] = r at hneg
  obtain ⟨ino, w⟩ := r
  dsimp only at hneg ⊢
  rw [hneg, if_neg Bool.false_ne_true]
  rcases getAIT_cases { rootKernel v with vol := w } ino with ⟨-, hall⟩ | ⟨s, -, -, hact⟩ | ⟨s, he, -, -⟩
  · exact absurd rfl (hall 0)
  · exact absurd rfl hact
  · rw [he]
    have hof : getOFT { rootKernel v with
        vol := w, ai := Function.update (rootKernel v).ai s (readInode w ((rootKernel v).ai s) ino) } = some 0 := rfl
    dsimp only
    rw [hof]
    rfl

theorem opens_rootKernel (hb : Blank 64 a v l) (hl : Lists v rootDir [(rootDir, [dot])]) (hlen : 3 ≤ l.length) :
    (openFile (rootKernel v) [97] .ocreat).1 ≠ -1 := by
  have h := hb.steady
  obtain ⟨⟨dirs, hpath, hwalk⟩, habsent, hfits⟩ := newName_rootKernel hl
  obtain ⟨inode, hcreate⟩ := pathToIno2_creates (show rootDir ≠ noAddr by decide) hpath hwalk (show rootDir ≠ noAddr by decide) habsent
  have hs : Sound (fun _ => True) _ v l := ⟨h.disk.good, fun _ _ _ => trivial⟩
  have hcase := createFile_extended (fun _ _ _ _ => trivial) hs inode h.cwd (h.disk.roomy h.cwd)
    (show ([97] : CStr).length ≤ 26 by decide)
  change pathToIno2 v [97] rootDir = createFile v inode rootDir [97] at hcreate
  have hlt : (createFile v inode rootDir [97]).1.toNat < 512 := by
    obtain ⟨-, rfl | ⟨hshort, -⟩ | hall⟩ | ⟨own₁, l₁, ic, hlt, -⟩ := hcase
    · simp at hlen
    · omega
    · have hlive := hb.live_iff.mp (hall 1 (by decide))
      exact absurd hlive (by decide)
    · exact hlt
  rw [openFile_rootKernel hcreate hlt]
  decide

theorem count_rootKernel (hb : Blank 64 a v l) :
    entryCount (inodeAt (rootKernel v).vol.disk (rootKernel v).cwd) = 1 :=
  hb.root_entry.1

end

theorem create_delete_one_byte : SameFree (format fullVol)
    (createDelete (rootKernel (format fullVol)) [97] [97] [.fwrite (fun _ => 7) 1]).vol := by
  obtain ⟨l, hlen, hb⟩ := format_blank fullVol rfl
  have hl := (newDir_format fullVol rfl).1
  generalize format fullVol = v at hb hl
  have hcount := count_rootKernel hb
  have hsize : finalSize [.fwrite (fun _ => 7) 1] = 1 := by decide
  have hblocks : blocksOf 1 = 1 := by decide
  refine (create_delete_neutral_iff _ l (rootKernel v) hb.steady [97] [97] (newName_rootKernel hl)
    (by rw [hcount]; decide) (opens_rootKernel hb hl (by omega)) [.fwrite (fun _ => 7) 1] ?_ ?_ ?_).mpr ?_
  · rw [hsize, hblocks]
    omega
  · rw [hsize]
    decide
  · rw [hsize]
    unfold ReadsOverwritten
    omega
  · rw [hsize, hcount]
    decide

/-- Opening, closing and deleting an empty file loses the block it was given. -/
theorem empty_file_leaks :
    (∃ own l, 60 ≤ l.length ∧ Steady own l (rootKernel (format fullVol))) ∧
    NewName (rootKernel (format fullVol)) [97] [97] ∧
    (openFile (rootKernel (format fullVol)) [97] .ocreat).1 ≠ -1 ∧
    ¬SameFree (format fullVol) (createDelete (rootKernel (format fullVol)) [97] [97] []).vol := by
  obtain ⟨l, hlen, hb⟩ := format_blank fullVol rfl
  have hl := (newDir_format fullVol rfl).1
  generalize format fullVol = v at hb hl
  have hcount := count_rootKernel hb
  have hblocks : blocksOf (finalSize []) = 1 := by decide
  have hopens := opens_rootKernel hb hl (by omega)
  refine ⟨⟨_, l, hlen, hb.steady⟩, newName_rootKernel hl, hopens, ?_⟩
  refine hb.steady.leaks (newName_rootKernel hl) (by rw [hcount]; decide) hopens (by omega) (by decide) ?_
    (by rw [hcount]; decide) (by decide) (by decide)
  unfold ReadsOverwritten
  rw [show (finalSize [] + 511) / 512 = 0 by decide]
  omega

end ArmKernel.Core
