import ArmKernel.Core.FileStore
import ArmKernel.Core.Program
import ArmKernel.Core.TreeRuns
import ArmKernel.Fs.TreePaths

/-! The commands `cat` and `setp` of the shell, which are programs over the calls
on files. -/
namespace ArmKernel.Core

open Lib Lib.Bytes Lib.Run Fs SuperBlock

/-- How many bytes a round of `cat` asks for. -/
def chunk (length i : Int) : Int := if length - i > 512 then 512 else length - i

/-- The loop of `cat`. A read that fails leaves in `buf` what was there. -/
def catLoop (fd length : Int) (k : Kernel) (buf : Block) (i : Int) : List UInt8 × Kernel :=
  if i < length then
    let n := chunk length i
    match fread k fd (UInt32.ofInt n) with
    | (_, x, k) =>
      let buf := putBytes buf 0 x
      match catLoop fd length k buf (i + 512) with
      | (out, k) => ((List.range n.toNat).map (byte buf) ++ out, k)
  else ([], k)
termination_by (length - i).toNat

/-- What is written to the console, and the kernel. -/
def cat (k : Kernel) (path : CStr) (buf : Block) : List UInt8 × Kernel :=
  match openFile k path .oexist with
  | (file, k) =>
    if file ≠ -1 then
      let k := (lseek k file 0 (some .seekEnd)).2
      let length := (tell k file).toInt32.toInt
      let k := (lseek k file 0 (some .seekSet)).2
      match catLoop file length k buf 0 with
      | (out, k) => (out, (close k file).2)
    else ([], k)

def setp (k : Kernel) (priority : UInt32) (path : CStr) : Kernel :=
  match openFile k path .oexist with
  | (file, k) =>
    if file ≠ -1 then
      let k := (lseek k file 4 (some .seekCur)).2
      let k := (fwrite k file (wordBytes priority) 4).2
      (close k file).2
    else k

/-! Handles. -/

/-- Descriptor `fd` of the current process is at position `p` of file `j`, whose
bytes are `b`. -/
structure Handle (k : Kernel) (fd : Int) (j : UInt32) (b : List UInt8) (p : Nat) : Prop where
  running : RunningInv k
  bytes : HasBytes k j b
  leads : Leads k fd j
  head : (tell k fd).toNat = p

section

variable {own : Owners} {l : List UInt32} {k : Kernel} {fd : Int} {j : UInt32} {b : List UInt8} {p : Nat}

theorem Handle.length_lt (h : Handle k fd j b p) : b.length < 11 * 512 := by
  obtain ⟨own, l, hrun⟩ := h.running
  obtain ⟨i, o, s, hfd, hs, hnum⟩ := h.leads
  have hact := hrun.tables.active o s hs
  rw [← contents_of_open hrun.tables hact hnum h.bytes, length_contents]
  exact (hrun.fsck.loaded s hact).small

/-- The kernel with another position in open file `o`. -/
def setHead (k : Kernel) (o : Fin 128) (x : UInt32) : Kernel :=
  { k with of := Function.update k.of o ⟨(k.of o).oInptr, x⟩ }

theorem setHead_leads {i : Fin 16} {o : Fin 128} (hfd : fdEntry k fd = some (i, o)) (h : Leads k fd j) (x : UInt32) :
    Leads (setHead k o x) fd j ∧ tell (setHead k o x) fd = x := by
  obtain ⟨i', o', s, hfd', hs, hnum⟩ := h
  obtain ⟨rfl, rfl⟩ : i = i' ∧ o = o' := by
    rw [hfd] at hfd'
    simpa using hfd'
  have hentry : fdEntry (setHead k o x) fd = some (i, o) := hfd
  refine ⟨⟨i, o, s, hentry, ?_, hnum⟩, ?_⟩
  · simpa [inptr, setHead] using hs
  · rw [tell, hentry]
    simp [setHead]

theorem Handle.setHead (h : Handle k fd j b p) {i : Fin 16} {o : Fin 128} (hfd : fdEntry k fd = some (i, o)) (x : UInt32) :
    Handle (setHead k o x) fd j b x.toNat := by
  obtain ⟨own, l, hrun⟩ := h.running
  obtain ⟨s, hs⟩ := hrun.tables.fdEntry hfd
  obtain ⟨hleads, htell⟩ := setHead_leads hfd h.leads x
  have hptr : (k.of o).oInptr = some s := hs
  have htables : Tables (Core.setHead k o x) := by
    rw [Core.setHead, hptr]
    exact hrun.tables.setHead hs x
  exact ⟨⟨own, l, hrun.keep htables rfl rfl rfl⟩, h.bytes, hleads, by rw [htell]⟩

theorem Handle.read (h : Handle k fd j b p) {n : UInt32} (hn : p + n.toNat ≤ b.length) :
    (fread k fd n).2.1 = (b.drop p).take n.toNat ∧ Handle (fread k fd n).2.2 fd j b (p + n.toNat) := by
  obtain ⟨own, l, hrun⟩ := h.running
  have hlt := h.length_lt
  have hhead := h.head
  obtain ⟨hread, hbytes⟩ := (h.bytes.reads hrun.fsck hrun.tables h.leads n).1 (by rwa [hhead])
  rw [hhead] at hbytes
  refine ⟨hbytes, ?_⟩
  obtain ⟨i, o, s, hfd, hs, hnum⟩ := id h.leads
  have hs' : (k.of o).oInptr = some s := hs
  rw [tell, hfd] at hhead
  have hkernel : (fread k fd n).2.2 = Core.setHead k o ((k.of o).oHead + n) := by
    have hshort : ¬(k.ai s).iIc.icSize < (k.of o).oHead + n := fun hshort => by
      simp [fread, hfd, hs', hshort] at hread
    simp [fread, hfd, hs', hshort, Core.setHead]
  have hsum : ((k.of o).oHead + n).toNat = p + n.toNat := by
    rw [UInt32.toNat_add, hhead, Nat.mod_eq_of_lt (by omega)]
  rw [hkernel, ← hsum]
  exact h.setHead hfd _

theorem Handle.seekSet (h : Handle k fd j b p) (offset : UInt32) :
    Handle (lseek k fd offset (some .seekSet)).2 fd j b offset.toNat := by
  obtain ⟨i, o, s, hfd, hs, hnum⟩ := id h.leads
  have he : (lseek k fd offset (some .seekSet)).2 = Core.setHead k o offset := by
    unfold lseek
    rw [hfd]
    rfl
  rw [he]
  exact h.setHead hfd _

theorem Handle.seekCur (h : Handle k fd j b p) (offset : UInt32) :
    Handle (lseek k fd offset (some .seekCur)).2 fd j b ((p + offset.toNat) % 2 ^ 32) := by
  obtain ⟨i, o, s, hfd, hs, hnum⟩ := id h.leads
  have hhead := h.head
  rw [tell, hfd] at hhead
  have he : (lseek k fd offset (some .seekCur)).2 = Core.setHead k o ((k.of o).oHead + offset) := by
    unfold lseek
    rw [hfd]
    rfl
  rw [he, ← hhead, ← UInt32.toNat_add]
  exact h.setHead hfd _

theorem Handle.seekEnd (h : Handle k fd j b p) :
    Handle (lseek k fd 0 (some .seekEnd)).2 fd j b b.length := by
  obtain ⟨own, l, hrun⟩ := h.running
  obtain ⟨i, o, s, hfd, hs, hnum⟩ := id h.leads
  have hs' : (k.of o).oInptr = some s := hs
  have hlen : b.length = (k.ai s).iIc.icSize.toNat := by
    rw [← contents_of_open hrun.tables (hrun.tables.active o s hs) hnum h.bytes, length_contents]
  have he : (lseek k fd 0 (some .seekEnd)).2 = Core.setHead k o (k.ai s).iIc.icSize := by
    simp [lseek, hfd, hs', Core.setHead]
  rw [he, hlen]
  exact h.setHead hfd _

theorem linkFile_leads (k : Kernel) (i : Fin 16) (o : Fin 128) {s : Fin 128} (hnum : (k.ai s).iNumber = j) :
    Leads (linkFile k i o s) i.val j ∧ tell (linkFile k i o s) i.val = (k.of o).oHead := by
  have hfd : fdEntry (linkFile k i o s) i.val = some (i, o) := by
    have := i.isLt
    simp [fdEntry, linkFile, Kernel.setPcb, Kernel.self, this]
  refine ⟨⟨i, o, s, hfd, ?_, ?_⟩, ?_⟩
  · rw [inptr_linkFile, Function.update_self]
  · rw [(active_linkFile k i o s s).2, hnum]
  · rw [tell, hfd]
    simp [linkFile, Kernel.setPcb]

theorem getAIT_number {ino : UInt32} {s : Fin 128} (h : (getAIT k ino).1 = some s) :
    ((getAIT k ino).2.ai s).iNumber = ino ∧ (getAIT k ino).2.of = k.of := by
  rcases getAIT_cases k ino with ⟨he, -⟩ | ⟨t, he, hnum, -⟩ | ⟨t, he, -⟩
  · rw [he] at h
    cases h
  · rw [he] at h ⊢
    cases h
    exact ⟨hnum, rfl⟩
  · rw [he] at h ⊢
    cases h
    exact ⟨by simp [readInode_number], rfl⟩

theorem open_handle (h : Running own l k) {path : CStr} (hok : openOk k.vol path)
    (hb : HasBytes k (pathToIno k.vol path rootDir) b) :
    (¬canOpen k (pathToIno k.vol path rootDir) ∧ (openFile k path .oexist).1 = -1) ∨
    (canOpen k (pathToIno k.vol path rootDir) ∧ (openFile k path .oexist).1 ≠ -1 ∧
      Handle (openFile k path .oexist).2 (openFile k path .oexist).1 (pathToIno k.vol path rootDir) b 0) := by
  have hrun : RunningInv (openFile k path .oexist).2 := h.openFile .oexist hok fun ho => nomatch ho
  have hbytes := hb.openFile h.fsck hok.opensFile .oexist fun ho => nomatch ho
  rcases openFile_oexist k path _ rfl with ⟨hno, hfail, -⟩ | ⟨i, s, o, hcan, hait, hoft, he⟩
  · exact .inl ⟨hno, hfail⟩
  · obtain ⟨hnum, hof⟩ := getAIT_number hait
    obtain ⟨hleads, htell⟩ := linkFile_leads _ i o hnum
    rw [he] at hrun hbytes ⊢
    refine .inr ⟨hcan, by dsimp only; omega, hrun, hbytes, hleads, ?_⟩
    dsimp only
    rw [htell, hof, h.tables.idle o (getOFT_some hoft)]
    rfl

end

/-! `cat`. -/

section

variable {own : Owners} {l : List UInt32} {k : Kernel} {fd : Int} {j : UInt32} {b : List UInt8}

theorem catLoop_round {length i : Int} (hlt : i < length) (buf : Block) :
    let r := fread k fd (UInt32.ofInt (chunk length i))
    let rest := catLoop fd length r.2.2 (putBytes buf 0 r.2.1) (i + 512)
    catLoop fd length k buf i =
      ((List.range (chunk length i).toNat).map (byte (putBytes buf 0 r.2.1)) ++ rest.1, rest.2) := by
  intro r rest
  rw [catLoop, if_pos hlt]

theorem catLoop_prints (i : Nat) (h : Handle k fd j b (min i b.length)) (buf : Block) :
    (catLoop fd b.length k buf i).1 = b.drop i ∧ ∃ p, Handle (catLoop fd b.length k buf i).2 fd j b p := by
  generalize hleft : b.length - i = left
  induction left using Nat.strong_induction_on generalizing i k buf with
  | _ left ih =>
    have hlt := h.length_lt
    by_cases hend : i < b.length
    · have hnat : chunk b.length i = (min 512 (b.length - i) : Nat) := by
        unfold chunk
        split <;> omega
      have hword : (UInt32.ofInt (chunk b.length i)).toNat = min 512 (b.length - i) := by
        rw [hnat, UInt32.ofInt, UInt32.toNat_ofNat']
        omega
      rw [Nat.min_eq_left hend.le] at h
      obtain ⟨hx, hnext⟩ := h.read (n := UInt32.ofInt (chunk b.length i)) (by omega)
      rw [hword] at hx hnext
      rw [catLoop_round (by exact_mod_cast hend)]
      dsimp only
      generalize fread k fd (UInt32.ofInt (chunk b.length i)) = r at hx hnext
      have hlen : r.2.1.length = min 512 (b.length - i) := by
        rw [hx, List.length_take, List.length_drop]
        omega
      rw [show i + min 512 (b.length - i) = min (i + 512) b.length by omega] at hnext
      obtain ⟨hout, hend⟩ := ih (b.length - (i + 512)) (by omega) (i + 512) hnext (putBytes buf 0 r.2.1) rfl
      rw [show (i : Int) + 512 = ((i + 512 : Nat) : Int) by push_cast; rfl]
      refine ⟨?_, hend⟩
      have hleft : b.drop (i + 512) = (b.drop i).drop (min 512 (b.length - i)) := by
        rw [List.drop_drop]
        rcases le_total 512 (b.length - i) with hfull | hlast
        · rw [min_eq_left hfull]
        · rw [List.drop_eq_nil_of_le (by omega), List.drop_eq_nil_of_le (by omega)]
      rw [hout, hnat, Int.toNat_natCast, ← hlen, map_byte_putBytes _ _ (by omega), hx, hleft, List.take_append_drop]
    · rw [catLoop, if_neg (by exact_mod_cast hend), List.drop_eq_nil_of_le (by omega)]
      exact ⟨rfl, _, h⟩

/-- What a command leaves as it was. -/
structure Kept (k k' : Kernel) : Prop where
  running : RunningInv k'
  tree : (shape k.vol.disk).Same (shape k'.vol.disk)
  bytes : ∀ i x, HasBytes k i x → HasBytes k' i x

theorem Kept.refl (h : RunningInv k) : Kept k k := ⟨h, same_refl _, fun _ _ hb => hb⟩

theorem Kept.trans {k₁ k₂ : Kernel} (h : Kept k k₁) (h' : Kept k₁ k₂) : Kept k k₂ :=
  ⟨h'.running, same_trans h.tree h'.tree, fun i x hb => h'.bytes i x (h.bytes i x hb)⟩

theorem openFile_kept (h : RunningInv k) {path : CStr} (hok : openOk k.vol path) :
    Kept k (openFile k path .oexist).2 := by
  obtain ⟨own, l, hrun⟩ := h
  exact ⟨hrun.openFile .oexist hok (fun ho => nomatch ho), same_of_vol (openFile_oexist_vol k path),
    fun i x hb => hb.openFile hrun.fsck hok.opensFile .oexist fun ho => nomatch ho⟩

theorem fread_kept (h : RunningInv k) (fd : Int) (n : UInt32) : Kept k (fread k fd n).2.2 := by
  obtain ⟨own, l, hrun⟩ := h
  exact ⟨⟨own, l, hrun.fread fd n⟩, same_of_vol (fread_vol k fd n), fun i x hb => hb.fread fd n⟩

theorem lseek_kept (h : RunningInv k) (fd : Int) (offset : UInt32) (whence : Option Whence) :
    Kept k (lseek k fd offset whence).2 := by
  obtain ⟨own, l, hrun⟩ := h
  have hnext := hrun.lseek fd offset whence
  obtain ⟨of', he⟩ := lseek_kernel k fd offset whence
  rw [he] at hnext ⊢
  exact ⟨⟨own, l, hnext⟩, same_refl _, fun i x hb => hb⟩

theorem close_kept (h : RunningInv k) (fd : Int) : Kept k (close k fd).2 := by
  obtain ⟨own, l, hrun⟩ := h
  exact ⟨⟨own, l, hrun.close fd⟩, hrun.fsck.same_close hrun.tables fd,
    fun i x hb => hb.close hrun.fsck hrun.tables fd⟩

theorem catLoop_kept (h : RunningInv k) (fd length : Int) (buf : Block) (i : Int) :
    Kept k (catLoop fd length k buf i).2 := by
  generalize hleft : (length - i).toNat = left
  induction left using Nat.strong_induction_on generalizing i k buf with
  | _ left ih =>
    by_cases hend : i < length
    · rw [catLoop_round hend]
      have hread := fread_kept h fd (UInt32.ofInt (chunk length i))
      exact hread.trans (ih (length - (i + 512)).toNat (by omega) hread.running _ (i + 512) rfl)
    · rw [catLoop, if_neg hend]
      exact .refl h

theorem cat_kept (h : RunningInv k) {path : CStr} (hok : openOk k.vol path) (buf : Block) :
    Kept k (cat k path buf).2 := by
  have hopen := openFile_kept h hok
  unfold cat
  dsimp only
  split
  · generalize openFile k path .oexist = r at hopen
    have hend := hopen.trans (lseek_kept hopen.running r.1 0 (some .seekEnd))
    have hstart := hend.trans (lseek_kept hend.running r.1 0 (some .seekSet))
    generalize (tell (lseek r.2 r.1 0 (some .seekEnd)).2 r.1).toInt32.toInt = length
    have hloop := hstart.trans (catLoop_kept hstart.running r.1 length buf 0)
    exact hloop.trans (close_kept hloop.running r.1)
  · exact hopen

theorem toInt_toInt32 {x : UInt32} (h : x.toNat < 2^31) : x.toInt32.toInt = x.toNat := by
  have hx : x.toInt32.toInt = x.toBitVec.toInt := rfl
  have hlt : 2 * x.toBitVec.toNat < 2^32 := by
    rw [show x.toBitVec.toNat = x.toNat from rfl]
    omega
  rw [hx, BitVec.toInt_eq_toNat_of_lt hlt]
  rfl

theorem cat_prints_file (h : Running own l k) {path : CStr} (hok : openOk k.vol path)
    (hb : HasBytes k (pathToIno k.vol path rootDir) b) (buf : Block) :
    (canOpen k (pathToIno k.vol path rootDir) → (cat k path buf).1 = b) ∧
      (¬canOpen k (pathToIno k.vol path rootDir) → (cat k path buf).1 = []) := by
  rcases open_handle h hok hb with ⟨hno, hfd⟩ | ⟨hcan, hfd, hhandle⟩
  · refine ⟨fun hcan => absurd hcan hno, fun _ => ?_⟩
    unfold cat
    dsimp only
    rw [if_neg (not_not_intro hfd)]
  · refine ⟨fun _ => ?_, fun hno => absurd hcan hno⟩
    unfold cat
    dsimp only
    rw [if_pos hfd]
    generalize openFile k path .oexist = r at hhandle
    have hend := hhandle.seekEnd
    have hlt := hhandle.length_lt
    rw [toInt_toInt32 (by rw [hend.head]; omega), hend.head]
    have hstart := hend.seekSet 0
    exact (catLoop_prints 0 (by simpa using hstart) buf).1

end

/-! `setp`. -/

section

variable {own : Owners} {l : List UInt32} {k : Kernel} {fd : Int} {j : UInt32} {b : List UInt8} {p : Nat}

theorem tell_eq {i : Fin 16} {o : Fin 128} (hfd : fdEntry k fd = some (i, o)) : tell k fd = (k.of o).oHead := by
  rw [tell, hfd]

theorem fwrite_leads {i : Fin 16} {o s : Fin 128} (data : Nat → UInt8) (n : UInt32) (hfd : fdEntry k fd = some (i, o))
    (hs : inptr k o = some s) (hnum : (k.ai s).iNumber = j) :
    Leads (fwrite k fd data n).2 fd j ∧ tell (fwrite k fd data n).2 fd = (k.of o).oHead + n := by
  have hgrown : ((growFor k.vol (k.ai s) (k.of o).oHead n).2.1).iNumber = (k.ai s).iNumber := by
    unfold growFor
    split
    · exact (allocateDataBlocks_sameFile ..).1
    · rfl
  rw [fwrite_eq data n hfd hs]
  dsimp only
  generalize growFor k.vol (k.ai s) (k.of o).oHead n = grown at hgrown
  generalize fwriteBytes grown.2.2 grown.2.1 (k.of o).oHead data n = v
  have hptr : (k.of o).oInptr = some s := hs
  refine ⟨⟨i, o, s, hfd, ?_, ?_⟩, ?_⟩
  · simp [inptr, hptr]
  · rw [← hnum, ← hgrown]
    simp
  · have hentry : ∀ of' ai', fdEntry { k with vol := v, ai := ai', of := of' } fd = some (i, o) := fun _ _ => hfd
    rw [tell_eq (hentry _ _)]
    dsimp only
    rw [Function.update_self]

theorem Leads.unique {j' : UInt32} (h : Leads k fd j) (h' : Leads k fd j') : j = j' := by
  obtain ⟨i, o, s, hfd, hs, rfl⟩ := h
  obtain ⟨i', o', s', hfd', hs', rfl⟩ := h'
  rw [hfd] at hfd'
  cases hfd'
  rw [hs] at hs'
  cases hs'
  rfl

theorem Handle.write (h : Handle k fd j b p) (data : Nat → UInt8) {n : UInt32} (hpos : 0 < n.toNat)
    (hend : p + n.toNat < 11 * 512) (hroom : ¬Failed (fwrite k fd data n).2.vol ∨ p + n.toNat < 512) :
    (∃ b', Overwritten b p ((List.range n.toNat).map data) b' ∧
      Handle (fwrite k fd data n).2 fd j b' (p + n.toNat)) ∧
    (shape k.vol.disk).Same (shape (fwrite k fd data n).2.vol.disk) ∧
    ∀ i x, i ≠ j → HasBytes k i x → HasBytes (fwrite k fd data n).2 i x := by
  obtain ⟨own, l, hrun⟩ := h.running
  have hhead := h.head
  obtain ⟨b', hb', hover⟩ := h.bytes.fwrite hrun.fsck hrun.tables data (by rwa [hhead]) (by rwa [hhead]) hpos h.leads
  rw [hhead] at hover
  obtain ⟨i, o, s, hfd, hs, hnum⟩ := id h.leads
  obtain ⟨hleads, htell⟩ := fwrite_leads data n hfd hs hnum
  rw [tell, hfd] at hhead
  have hsum : ((k.of o).oHead + n).toNat = p + n.toNat := by
    rw [UInt32.toNat_add, hhead, Nat.mod_eq_of_lt (by omega)]
  have hwrite : (writeEnd k fd n).toNat = p + n.toNat := by
    rw [writeEnd, hfd]
    exact hsum
  have hend' : (writeEnd k fd n).toNat < 11 * 512 := by rwa [hwrite]
  have hroom' : ¬Failed (fwrite k fd data n).2.vol ∨ (writeEnd k fd n).toNat < 512 := by rwa [hwrite]
  obtain ⟨own', l', -, -, hsame⟩ := hrun.fsck.fwrite hrun.tables fd data n hend' hroom'
  refine ⟨⟨b', hover, hrun.fwrite data hend' hroom', hb', hleads, ?_⟩, hsame, fun i' x hi hx => ?_⟩
  · rw [htell, hsum]
  · exact hx.fwrite_other hrun.fsck hrun.tables hend' hroom' fun hl => hi (hl.unique h.leads)

theorem overwrite_congr {x : List UInt8} (hx : x.length = 4) (old old' : UInt32) : overwrite old x = overwrite old' x := by
  refine word_congr fun i hi => ?_
  rw [byte_putBytes_of_mem _ _ (by omega) (by omega), byte_putBytes_of_mem _ _ (by omega) (by omega)]

theorem overwrite_wordBytes (old w : UInt32) : overwrite old ((List.range 4).map (wordBytes w)) = w := by
  have hbyte : ∀ i < 4, byte (putBytes (ofWords 4 fun _ => old) 0 ((List.range 4).map (wordBytes w))) (4*0+i) =
      leByte w i := fun i hi => by
    rw [byte_putBytes_of_mem _ _ (by simp; omega) (by omega)]
    simp [hi, wordBytes]
  rw [overwrite, word, hbyte 1 (by omega), hbyte 2 (by omega), hbyte 3 (by omega)]
  rw [show byte _ (4*0) = leByte w 0 from hbyte 0 (by omega), leWord_leByte]

theorem getAIT_some {ino : UInt32} (h : (∃ s, Active k s ∧ (k.ai s).iNumber = ino) ∨ ∃ s, ¬Active k s) :
    (getAIT k ino).1 ≠ none := by
  intro hnone
  unfold getAIT at hnone
  split at hnone
  · cases hnone
  · next hno =>
    rcases h with ⟨s, hact, hnum⟩ | ⟨s, hidle⟩
    · refine find_finRange_none hno s ?_
      rw [Bool.and_eq_true, beq_iff_eq, bne_iff_ne]
      exact ⟨hnum, hact⟩
    · split at hnone
      · cases hnone
      · next hall =>
        refine find_finRange_none hall s ?_
        simpa [Active] using hidle

theorem canOpen_close (h : Handle k fd j b p) : canOpen (close k fd).2 j := by
  obtain ⟨own, l, hrun⟩ := h.running
  obtain ⟨i, o, s, hfd, hs, hnum⟩ := h.leads
  have hact := hrun.tables.active o s hs
  have hlt : j.toNat < 512 := by
    rw [← hnum]
    exact (hrun.fsck.loaded s hact).number
  rw [close_eq hfd hs]
  dsimp only
  have hcur : (unlinkFile k i o s).current = k.current := by
    obtain ⟨v, he⟩ := unlinkAit_eq k s
    simp [unlinkFile, he, Kernel.setPcb]
  refine ⟨fun hnone => ?_, isNeg_of_lt hlt, fun hnone => ?_, fun hnone => ?_⟩
  · refine find_finRange_none hnone i ?_
    rw [Kernel.self, fd_unlinkFile, hcur, if_pos ⟨rfl, rfl⟩]
    rfl
  · -- the slot is idle now, or still that of the file
    refine getAIT_some ?_ hnone
    by_cases hlast : (k.ai s).iLinks - 1 = 0
    · exact .inr ⟨s, not_active_unlinkFile hlast i o⟩
    · refine .inl ⟨s, ?_, ?_⟩
      · rw [Active, ai_unlinkFile_more hlast]
        exact hact
      · rw [ai_unlinkFile_more hlast]
        exact hnum
  · refine find_finRange_none hnone o ?_
    have hptr : inptr (unlinkFile k i o s) o = none := by
      rw [inptr_unlinkFile, Function.update_self]
    rw [inptr] at hptr
    rw [hptr]
    rfl

theorem exec_handle (h : Running own l k) {path : CStr} (hok : openOk k.vol (strtokCut path))
    (hino : pathToIno k.vol (strtokCut path) rootDir = pathToIno k.vol path rootDir)
    (hfound : pathToIno k.vol path rootDir ≠ noAddr)
    (hb : HasBytes k (pathToIno k.vol path rootDir) b) (h8 : 8 ≤ b.length)
    (hcan : canOpen k (pathToIno k.vol path rootDir)) :
    (exec k path).1 = 0 ∧ (exec k path).2.ctx.pc = overwrite 0 (b.take 4) ∧
      ((exec k path).2.pcb k.current).defp = overwrite 0 ((b.drop 4).take 4) ∧
      ((exec k path).2.pcb k.current).prio = overwrite 0 ((b.drop 4).take 4) := by
  have hsame := sameProcs_getProgramEntry k path (word k.vol.stkBlk 0) (word k.vol.stkBlk 1)
  rw [← hino] at hb hcan
  obtain ⟨-, hfd, hhandle⟩ := (open_handle h hok hb).resolve_left fun hno => hno.1 hcan
  have hprog : ∃ k', getProgramEntry k path (word k.vol.stkBlk 0) (word k.vol.stkBlk 1) =
      (0, overwrite 0 (b.take 4), overwrite 0 ((b.drop 4).take 4), k') := by
    unfold getProgramEntry
    rw [if_pos hfound]
    generalize openFile k (strtokCut path) .oexist = r at hfd hhandle
    obtain ⟨hx, hnext⟩ := hhandle.read (show 0 + (4 : UInt32).toNat ≤ b.length from le_trans (by decide) h8)
    obtain ⟨hy, -⟩ := hnext.read (show 0 + (4 : UInt32).toNat + (4 : UInt32).toNat ≤ b.length from h8)
    have hx : (fread r.2 r.1 4).2.1 = b.take 4 := hx
    have hy : (fread (fread r.2 r.1 4).2.2 r.1 4).2.1 = (b.drop 4).take 4 := hy
    dsimp only
    rw [if_pos hfd, hx, hy]
    refine ⟨(close (fread (fread r.2 r.1 4).2.2 r.1 4).2.2 r.1).2, ?_⟩
    have hfirst : (b.take 4).length = 4 := by
      rw [List.length_take]
      omega
    have hsecond : ((b.drop 4).take 4).length = 4 := by
      rw [List.length_take, List.length_drop]
      omega
    rw [overwrite_congr hfirst _ 0, overwrite_congr hsecond _ 0]
  obtain ⟨k', hprog⟩ := hprog
  rw [hprog] at hsame
  have hcur : k'.current = k.current := hsame.current
  simp only [exec, hprog]
  rw [if_neg (by decide)]
  simp [Kernel.setPcb, hcur]

theorem setp_spec (h : Running own l k) {path : CStr} (hok : openOk k.vol path)
    (hb : HasBytes k (pathToIno k.vol path rootDir) b) (hcan : canOpen k (pathToIno k.vol path rootDir))
    (priority : UInt32) :
    RunningInv (setp k priority path) ∧ (shape k.vol.disk).Same (shape (setp k priority path).vol.disk) ∧
      canOpen (setp k priority path) (pathToIno k.vol path rootDir) ∧
      (∃ b', Overwritten b 4 ((List.range 4).map (wordBytes priority)) b' ∧
        HasBytes (setp k priority path) (pathToIno k.vol path rootDir) b') ∧
      ∀ i x, i ≠ pathToIno k.vol path rootDir → HasBytes k i x → HasBytes (setp k priority path) i x := by
  obtain ⟨-, hfd, hhandle⟩ := (open_handle h hok hb).resolve_left fun hno => hno.1 hcan
  have hopen := openFile_kept ⟨own, l, h⟩ hok
  unfold setp
  dsimp only
  rw [if_pos hfd]
  generalize openFile k path .oexist = r at hfd hhandle hopen
  have hseek := hhandle.seekCur 4
  have hkept := hopen.trans (lseek_kept hopen.running r.1 4 (some .seekCur))
  generalize (lseek r.2 r.1 4 (some .seekCur)).2 = k₁ at hseek hkept ⊢
  obtain ⟨⟨b', hover, hwritten⟩, hsame, hothers⟩ := hseek.write (wordBytes priority)
    (show 0 < (4 : UInt32).toNat by decide) (by decide) (.inr (by decide))
  generalize (fwrite k₁ r.1 (wordBytes priority) 4).2 = k₂ at hwritten hsame hothers ⊢
  have hclose := close_kept hwritten.running r.1
  refine ⟨hclose.running, same_trans (same_trans hkept.tree hsame) hclose.tree, canOpen_close hwritten,
    ⟨b', hover, hclose.bytes _ _ hwritten.bytes⟩, fun i x hi hx => ?_⟩
  exact hclose.bytes i x (hothers i x hi (hkept.bytes i x hx))

theorem Overwritten.eq_append {x b' : List UInt8} (h : Overwritten b p x b') (hfit : p + x.length ≤ b.length) :
    b' = b.take p ++ x ++ b.drop (p + x.length) := by
  have hlen := h.length
  rw [max_eq_left hfit] at hlen
  apply List.ext_getElem?
  intro i
  rw [List.append_assoc]
  by_cases hbefore : i < p
  · rw [List.getElem?_append_left (by rw [List.length_take]; omega), List.getElem?_take_of_lt hbefore]
    exact h.kept i (by omega) (by omega)
  · rw [List.getElem?_append_right (by rw [List.length_take]; omega), List.length_take, min_eq_left (by omega)]
    by_cases hin : i < p + x.length
    · rw [List.getElem?_append_left (by omega), ← h.written (i - p) (by omega), show p + (i - p) = i by omega]
    · rw [List.getElem?_append_right (by omega), List.getElem?_drop, show p + x.length + (i - p - x.length) = i by omega]
      by_cases hend : i < b.length
      · exact h.kept i hend (by omega)
      · rw [List.getElem?_eq_none (by omega), List.getElem?_eq_none (by omega)]

theorem openOk_same {own' : Owners} {l' : List UInt32} {k' : Kernel} (h : Running own l k) (h' : Running own' l' k')
    (hs : (shape k.vol.disk).Same (shape k'.vol.disk)) {path : CStr} (hok : openOk k.vol path) :
    openOk k'.vol path ∧ pathToIno k'.vol path rootDir = pathToIno k.vol path rootDir := by
  have hlen : ∀ t ∈ tokens path, t.length ≤ 25 := fun t ht => (hok.1 t ht).2.1
  have hn := h.fsck.disk.navigable
  have hn' := h'.fsck.disk.navigable
  obtain ⟨hiff, hwalk⟩ := hn.walk_shape hlen (.inr hn.root.live)
  obtain ⟨hiff', hwalk'⟩ := hn'.walk_shape hlen (.inr hn'.root.live)
  have halong := hs.along (hiff.mp hok.2.1)
  have hpath : pathToIno k'.vol path rootDir = pathToIno k.vol path rootDir :=
    (hwalk' (hiff'.mpr halong)).trans ((hs.walk (hiff.mp hok.2.1)).trans (hwalk hok.2.1).symm)
  refine ⟨⟨hok.1, hiff'.mpr halong, fun hfound hdir => ?_⟩, hpath⟩
  have hlive := (hn'.walk (.inr hn'.root.live) (hiff'.mpr halong)).resolve_left hfound
  have hD := hs.dir.mp (hn'.dir_of_read hlive hdir)
  obtain ⟨hlt, hmode⟩ := mode_of_dir hD
  refine hok.2.2 (hpath ▸ hfound) ?_
  rw [← hpath, readInode_eq h.fsck.disk.good.acct.formatted]
  · exact hmode
  · exact hlt

theorem setp_exec (h : Running own l k) {path : CStr} (hok : openOk k.vol path) (hone : (tokens path).length = 1)
    (hb : HasBytes k (pathToIno k.vol path rootDir) b) (h8 : 8 ≤ b.length)
    (hcan : canOpen k (pathToIno k.vol path rootDir)) (priority : UInt32) :
    let i := pathToIno k.vol path rootDir
    let k₁ := setp k priority path
    let r := exec k₁ path
    HasBytes k₁ i (b.take 4 ++ (List.range 4).map (wordBytes priority) ++ b.drop 8) ∧
      (∀ j x, j ≠ i → HasBytes k j x → HasBytes k₁ j x) ∧
      r.1 = 0 ∧ r.2.ctx.pc = overwrite 0 (b.take 4) ∧
      (r.2.pcb k₁.current).defp = priority ∧ (r.2.pcb k₁.current).prio = priority := by
  intro i k₁ r
  obtain ⟨⟨own', l', h₁⟩, hsame, hcan₁, ⟨b', hover, hb₁⟩, hothers⟩ := setp_spec h hok hb hcan priority
  have hlen : ((List.range 4).map (wordBytes priority)).length = 4 := rfl
  have hb' := hover.eq_append (by rw [hlen]; exact h8)
  rw [hlen] at hb'
  obtain ⟨hok₁, hpath⟩ := openOk_same h h₁ hsame hok
  -- one component is left of one
  have hcut : tokens (strtokCut path) = tokens path := by
    rw [tokens_strtokCut, List.take_of_length_le hone.le]
  have hino : ∀ v, pathToIno v (strtokCut path) rootDir = pathToIno v path rootDir := fun v => by
    rw [pathToIno, hcut, pathToIno]
  have hokcut : openOk k₁.vol (strtokCut path) := by
    rw [openOk, hcut, hino]
    exact hok₁
  have hi : i ≠ noAddr := ne_noAddr_of_lt (h.fsck.lt_current hb.choose_spec.1)
  subst hb'
  have hfour : (b.take 4).length = 4 := by
    rw [List.length_take]
    omega
  have hentry : (b.take 4 ++ (List.range 4).map (wordBytes priority) ++ b.drop (4+4)).take 4 = b.take 4 := by
    rw [List.append_assoc, List.take_left' hfour]
  have hprio : ((b.take 4 ++ (List.range 4).map (wordBytes priority) ++ b.drop (4+4)).drop 4).take 4 =
      (List.range 4).map (wordBytes priority) := by
    rw [List.append_assoc, List.drop_left' hfour, List.take_left' hlen]
  have hrun := exec_handle h₁ hokcut (hino _) (hpath ▸ hi) (hpath ▸ hb₁) (by simp; omega) (hpath ▸ hcan₁)
  rw [hentry, hprio, overwrite_wordBytes] at hrun
  exact ⟨hb₁, hothers, hrun⟩

end

/-- **`cat` prints the file**, each byte once and in order, whatever its length;
or nothing when it cannot be opened. Nothing is changed by it. -/
theorem cat_prints (k₀ : Kernel) (h₀ : Ready k₀) (events : List MachineEvent)
    (hc : Along eventStep eventOk (wiped k₀) events) (path : CStr) (b : List UInt8) (buf : Block)
    (hok : openOk (run eventStep (wiped k₀) events).vol path)
    (hb : HasBytes (run eventStep (wiped k₀) events)
      (pathToIno (run eventStep (wiped k₀) events).vol path rootDir) b) :
    let k := run eventStep (wiped k₀) events
    (canOpen k (pathToIno k.vol path rootDir) → (cat k path buf).1 = b) ∧
      (¬canOpen k (pathToIno k.vol path rootDir) → (cat k path buf).1 = []) ∧ Kept k (cat k path buf).2 := by
  intro k
  have hinv : RunningInv k := invariant event_step (wiped_seeded h₀).running hc
  obtain ⟨own, l, h⟩ := id hinv
  obtain ⟨hprints, hnothing⟩ := cat_prints_file h hok hb buf
  exact ⟨hprints, hnothing, cat_kept hinv hok buf⟩

theorem Idle.canOpen {k : Kernel} (h : Idle k) {ino : UInt32} (hlt : ino.toNat < 512) : canOpen k ino := by
  refine ⟨fun hnone => ?_, isNeg_of_lt hlt, getAIT_some (.inr ⟨0, not_not_intro (h.ai 0).2⟩), fun hnone => ?_⟩
  · refine find_finRange_none hnone 0 ?_
    rw [Kernel.self, h.fd]
    rfl
  · refine find_finRange_none hnone 0 ?_
    rw [h.of]
    rfl

/-- A program file of a new disk. -/
structure Startable (k : Kernel) (path : CStr) (b : List UInt8) : Prop where
  ok : openOk k.vol path
  one : (tokens path).length = 1
  bytes : HasBytes k (pathToIno k.vol path rootDir) b
  long : 8 ≤ b.length
  can : canOpen k (pathToIno k.vol path rootDir)

theorem startable_P0 : Startable (wiped blankKernel) (cstr "P0") (objBytes 0) := by
  have hstocked := wiped_stocked ready_blankKernel
  have hname : nameOk (cstr "P0") := by
    unfold nameOk
    decide
  exact ⟨hstocked.seeded.openOk hname (by decide), by decide, hstocked.hasBytes 0, by decide,
    (hstocked.seeded.tables.idle_of_inactive hstocked.idle).canOpen (hstocked.holds 0).lt⟩

theorem cat_prints_program : (cat (wiped blankKernel) (cstr "P0") zeroBlock).1 = objBytes 0 := by
  have h := startable_P0
  exact (cat_prints blankKernel ready_blankKernel [] trivial (cstr "P0") _ zeroBlock h.ok h.bytes).1 h.can

/-- **A program runs with the priority that `setp` gives it**, at the entry point
it had; the rest of its file and all other files stay as they are. -/
theorem setp_then_exec (k₀ : Kernel) (h₀ : Ready k₀) (events : List MachineEvent)
    (hc : Along eventStep eventOk (wiped k₀) events) (path : CStr) (b : List UInt8) (priority : UInt32)
    (hok : openOk (run eventStep (wiped k₀) events).vol path) (hone : (tokens path).length = 1)
    (hb : HasBytes (run eventStep (wiped k₀) events)
      (pathToIno (run eventStep (wiped k₀) events).vol path rootDir) b) (h8 : 8 ≤ b.length)
    (hcan : canOpen (run eventStep (wiped k₀) events)
      (pathToIno (run eventStep (wiped k₀) events).vol path rootDir)) :
    let k := run eventStep (wiped k₀) events
    let i := pathToIno k.vol path rootDir
    let k₁ := setp k priority path
    let r := exec k₁ path
    HasBytes k₁ i (b.take 4 ++ (List.range 4).map (wordBytes priority) ++ b.drop 8) ∧
      (∀ j x, j ≠ i → HasBytes k j x → HasBytes k₁ j x) ∧
      r.1 = 0 ∧ r.2.ctx.pc = overwrite 0 (b.take 4) ∧
      (r.2.pcb k₁.current).defp = priority ∧ (r.2.pcb k₁.current).prio = priority := by
  obtain ⟨own, l, h⟩ := invariant event_step (wiped_seeded h₀).running hc
  exact setp_exec h hok hone hb h8 hcan priority

theorem setp_then_exec_program :
    let k₁ := setp (wiped blankKernel) 7 (cstr "P0")
    (exec k₁ (cstr "P0")).1 = 0 ∧ ((exec k₁ (cstr "P0")).2.pcb k₁.current).defp = 7 := by
  intro k₁
  have h := startable_P0
  obtain ⟨-, -, hzero, -, hdefp, -⟩ :=
    setp_then_exec blankKernel ready_blankKernel [] trivial (cstr "P0") _ 7 h.ok h.one h.bytes h.long h.can
  exact ⟨hzero, hdefp⟩

end ArmKernel.Core
