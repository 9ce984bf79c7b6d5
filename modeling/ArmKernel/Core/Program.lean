import ArmKernel.Core.CreateDelete
import ArmKernel.Core.ReadyQueue

/-! What `exec` loads. The path is resolved to see that it is there and again
to open it, by which time `strtok` has cut it off after its first component;
neither of the two reads is checked. -/
namespace ArmKernel.Core

open Lib Lib.Bytes Fs

/-- The inode `open` finds for a number: the active copy or the one on disk. -/
def fileIc (k : Kernel) (ino : UInt32) : ICommon :=
  match (List.finRange 128).find? fun i =>
      (k.ai i).iNumber == ino && (k.ai i).iIc.icMode != Mode.ifzero.code with
  | some s => (k.ai s).iIc
  | none => (readInode k.vol ⟨0, 0, k.vol.stkIc⟩ ino).iIc

def fileWord (k : Kernel) (ino : UInt32) (i : Nat) : UInt32 :=
  word (diskRd k.vol ((fileIc k ino).db 0) k.vol.stkBlk) i

/-- The path names a program and there is a descriptor to read it with. -/
def runnable (k : Kernel) (path : CStr) : Prop :=
  pathToIno k.vol path rootDir ≠ noAddr ∧
    (fileIc k (pathToIno k.vol path rootDir)).icMode = Mode.ifreg.code ∧
    8 ≤ (fileIc k (pathToIno k.vol path rootDir)).icSize.toNat ∧ getFD k ≠ none

/-- The program the whole path names is loaded, or nothing happens. -/
structure RunsProgram (k : Kernel) (path : CStr) (r : Int × Kernel) : Prop where
  runs : runnable k path → r.1 = 0 ∧
    r.2.ctx.pc = fileWord k (pathToIno k.vol path rootDir) 0 ∧
    (r.2.pcb k.current).ctx.pc = fileWord k (pathToIno k.vol path rootDir) 0 ∧
    (r.2.pcb k.current).defp = fileWord k (pathToIno k.vol path rootDir) 1 ∧
    (r.2.pcb k.current).prio = fileWord k (pathToIno k.vol path rootDir) 1
  fails : ¬runnable k path → r.1 = -1 ∧ r.2.pcb k.current = k.pcb k.current ∧ r.2.ctx = k.ctx

/-- A descriptor and entries of the two tables can be had for a file. -/
def canOpen (k : Kernel) (ino : UInt32) : Prop :=
  getFD k ≠ none ∧ isNeg ino = false ∧ (getAIT k ino).1 ≠ none ∧ getOFT k ≠ none

def loaded (k : Kernel) (ino : UInt32) : UInt32 × UInt32 :=
  (if 4 ≤ (fileIc k ino).icSize.toNat then fileWord k ino 0 else word k.vol.stkBlk 0,
    if 8 ≤ (fileIc k ino).icSize.toNat then fileWord k ino 1 else word k.vol.stkBlk 1)

/-- The file that is opened: the first component of the path. -/
def openedIno (k : Kernel) (path : CStr) : UInt32 := pathToIno k.vol (strtokCut path) rootDir

section

variable {k : Kernel} {ino : UInt32}

theorem getAIT_fileIc {s : Fin 128} (h : (getAIT k ino).1 = some s) :
    ((getAIT k ino).2.ai s).iIc = fileIc k ino := by
  unfold getAIT at h ⊢
  unfold fileIc
  cases hactive : (List.finRange 128).find? fun i =>
      (k.ai i).iNumber == ino && (k.ai i).iIc.icMode != Mode.ifzero.code with
  | some t =>
    rw [hactive] at h
    simp only [Option.some.injEq] at h
    rw [h]
  | none =>
    rw [hactive] at h
    dsimp only at h ⊢
    cases hidle : (List.finRange 128).find? fun i => (k.ai i).iIc.icMode == Mode.ifzero.code with
    | some t =>
      rw [hidle] at h
      simp only [Option.some.injEq] at h
      simp only [h, Function.update_self]
      rfl
    | none =>
      rw [hidle] at h
      cases h

theorem getOFT_getAIT : getOFT (getAIT k ino).2 = getOFT k := by
  rcases getAIT_cases k ino with ⟨he, -⟩ | ⟨s, he, -⟩ | ⟨s, he, -⟩
  · rw [he]
  · rw [he]
  · rw [he]
    rfl

theorem openFile_oexist (k : Kernel) (path : CStr) (ino : UInt32) (hino : pathToIno k.vol path rootDir = ino) :
    (¬canOpen k ino ∧ (openFile k path .oexist).1 = -1 ∧ (openFile k path .oexist).2.pcb = k.pcb) ∨
    ∃ i s o, canOpen k ino ∧ (getAIT k ino).1 = some s ∧ getOFT k = some o ∧
      openFile k path .oexist = ((i.val : Int), linkFile (getAIT k ino).2 i o s) := by
  have hv : resolve k.vol path .oexist = (ino, k.vol) := by rw [resolve, hino]
  unfold canOpen openFile
  rw [hv]
  cases hfd : getFD k with
  | none => exact .inl ⟨by simp, rfl, rfl⟩
  | some i =>
    cases hneg : isNeg ino with
    | true => exact .inl ⟨by simp, by simp [hneg], by simp [hneg]⟩
    | false =>
      have hpcb : (getAIT k ino).2.pcb = k.pcb := by
        rcases getAIT_cases k ino with ⟨he, -⟩ | ⟨s, he, -⟩ | ⟨s, he, -⟩ <;> rw [he]
      have hoft : getOFT (getAIT k ino).2 = getOFT k := getOFT_getAIT
      rcases hait : getAIT k ino with ⟨_ | s, k'⟩
      · rw [hait] at hpcb
        exact .inl ⟨by simp, by simp [hneg, hait], by simpa [hneg, hait] using hpcb⟩
      · rw [hait] at hpcb hoft
        cases ho : getOFT k with
        | none => exact .inl ⟨by simp, by simp [hneg, hait, hoft, ho],
            by simpa [hneg, hait, hoft, ho] using hpcb⟩
        | some o => exact .inr ⟨i, s, o, by simp, rfl, rfl, by simp [hneg, hait, hoft, ho]⟩

theorem freadLoop_word (v : Vol) (inode : INode) (buf : Block) {head : UInt32} {w : Nat} (hw : w < 127)
    (hhead : head.toNat = 4*w) : freadLoop v inode head 4 4 0 buf =
      [byte buf (4*w), byte buf (4*w+1), byte buf (4*w+2), byte buf (4*w+3)] := by
  have hnat : ∀ i < 4, (head + UInt32.ofNat i).toNat % 512 = 4*w + i := fun i hi => by
    rw [UInt32.toNat_add, UInt32.toNat_ofNat', hhead]
    omega
  have hnext : ∀ i < 4, ¬(i ≠ 4 - 1 ∧ (head + UInt32.ofNat i + 1).toNat % 512 = 0) := fun i hi => by
    rw [UInt32.toNat_add, UInt32.toNat_add, UInt32.toNat_ofNat', hhead, show (1 : UInt32).toNat = 1 from rfl]
    omega
  simp only [freadLoop]
  rw [hnat 0 (by omega), hnat 1 (by omega), hnat 2 (by omega), hnat 3 (by omega), if_neg (hnext 0 (by omega)),
    if_neg (hnext 1 (by omega)), if_neg (hnext 2 (by omega))]
  simp

theorem overwrite_word (old : UInt32) (buf : Block) (w : Nat) :
    overwrite old [byte buf (4*w), byte buf (4*w+1), byte buf (4*w+2), byte buf (4*w+3)] = word buf w := by
  refine word_congr fun i hi => ?_
  rw [byte_putBytes_of_mem _ _ ⟨by omega, by simp; omega⟩ (by omega)]
  match i with
  | 0 => rfl
  | 1 => rfl
  | 2 => rfl
  | 3 => rfl

theorem overwrite_nil (old : UInt32) : overwrite old [] = old := by
  have hput : ∀ b : Bytes 4, putBytes b 0 [] = b := fun b => by
    apply ext_byte
    intro i hi
    rw [byte_putBytes_of_not_mem _ _ (by simp)]
  rw [overwrite, hput, word_ofWords _ (by omega)]

theorem fread_word (fd : Int) {i : Fin 16} {o s : Fin 128} {w : Nat} (hfd : fdEntry k fd = some (i, o))
    (hs : (k.of o).oInptr = some s) (hw : w < 127) (hhead : (k.of o).oHead.toNat = 4*w) (old : UInt32) :
    overwrite old (fread k fd 4).2.1 = (if 4*w + 4 ≤ (k.ai s).iIc.icSize.toNat then
        word (diskRd k.vol ((k.ai s).iIc.db 0) k.vol.stkBlk) w else old) ∧
      (fread k fd 4).2.2 = if 4*w + 4 ≤ (k.ai s).iIc.icSize.toNat then
        { k with of := Function.update k.of o { k.of o with oHead := (k.of o).oHead + 4 } } else k := by
  have hsum : ((k.of o).oHead + 4).toNat = 4*w + 4 := by
    rw [UInt32.toNat_add, hhead, show (4 : UInt32).toNat = 4 from rfl]
    omega
  have hlt : (k.ai s).iIc.icSize < (k.of o).oHead + 4 ↔ ¬4*w + 4 ≤ (k.ai s).iIc.icSize.toNat := by
    rw [UInt32.lt_iff_toNat_lt, hsum]
    omega
  simp only [fread, hfd, hs, hlt]
  by_cases hsize : 4*w + 4 ≤ (k.ai s).iIc.icSize.toNat
  · rw [if_pos hsize, if_neg (not_not.mpr hsize), if_pos hsize]
    dsimp only
    have haddr : getDataBlockAddr k.vol (k.ai s) (k.of o).oHead = (k.ai s).iIc.db 0 := by
      unfold getDataBlockAddr
      dsimp only
      rw [hhead, show 4*w/512 = 0 by omega, if_pos (by omega)]
    rw [show intCount 4 = 4 from rfl, freadLoop_word _ _ _ hw hhead, overwrite_word, getDataBlock, haddr]
    exact ⟨rfl, rfl⟩
  · rw [if_neg hsize, if_pos hsize, if_neg hsize]
    exact ⟨overwrite_nil old, rfl⟩

theorem freads_loaded {fd : Int} {i : Fin 16} {o s : Fin 128} (hfd : fdEntry k fd = some (i, o))
    (hs : (k.of o).oInptr = some s) (hhead : (k.of o).oHead = 0) (entry priority : UInt32) :
    overwrite entry (fread k fd 4).2.1 = (if 4 ≤ (k.ai s).iIc.icSize.toNat then
        word (diskRd k.vol ((k.ai s).iIc.db 0) k.vol.stkBlk) 0 else entry) ∧
      overwrite priority (fread (fread k fd 4).2.2 fd 4).2.1 = if 8 ≤ (k.ai s).iIc.icSize.toNat then
        word (diskRd k.vol ((k.ai s).iIc.db 0) k.vol.stkBlk) 1 else priority := by
  obtain ⟨hfirst, hk⟩ := fread_word fd hfd hs (show 0 < 127 by omega) (by rw [hhead]; rfl) entry
  refine ⟨hfirst, ?_⟩
  rw [hk]
  split
  · -- the head has moved on
    have hnext := fread_word (k := { k with of := Function.update k.of o { k.of o with oHead := (k.of o).oHead + 4 } })
      fd (i := i) (o := o) (s := s) (w := 1) hfd (by simpa using hs) (by omega)
      (by simp [hhead]) priority
    exact hnext.1
  · next hshort =>
    rw [if_neg (by omega)]
    have hagain := (fread_word fd hfd hs (show 0 < 127 by omega) (by rw [hhead]; rfl) priority).1
    rwa [if_neg hshort] at hagain

theorem exec_found (hidle : ∀ o, (k.of o).oInptr = none → (k.of o).oHead = 0) {path : CStr}
    (hfound : pathToIno k.vol path rootDir ≠ noAddr) :
    (¬canOpen k (openedIno k path) ∧ (exec k path).1 = -1 ∧ (exec k path).2.pcb = k.pcb ∧
      (exec k path).2.ctx = k.ctx) ∨
    (canOpen k (openedIno k path) ∧ (exec k path).1 = 0 ∧ (exec k path).2.ctx.pc = (loaded k (openedIno k path)).1 ∧
      ((exec k path).2.pcb k.current).ctx.pc = (loaded k (openedIno k path)).1 ∧
      ((exec k path).2.pcb k.current).defp = (loaded k (openedIno k path)).2 ∧
      ((exec k path).2.pcb k.current).prio = (loaded k (openedIno k path)).2) := by
  have hsame := sameProcs_getProgramEntry k path (word k.vol.stkBlk 0) (word k.vol.stkBlk 1)
  have hctx := (sameProcs_openFile k (strtokCut path) .oexist).ctx
  rcases openFile_oexist k (strtokCut path) (openedIno k path) rfl with
    ⟨hno, hfail, hpcb⟩ | ⟨i, s, o, hcan, hait, hoft, he⟩
  · have hprog : getProgramEntry k path (word k.vol.stkBlk 0) (word k.vol.stkBlk 1) =
        (-1, word k.vol.stkBlk 0, word k.vol.stkBlk 1, (openFile k (strtokCut path) .oexist).2) := by
      unfold getProgramEntry
      rw [if_pos hfound]
      dsimp only
      rw [if_neg (not_not.mpr hfail)]
    refine .inl ⟨hno, ?_⟩
    simp only [exec, hprog, if_true]
    exact ⟨trivial, hpcb, hctx⟩
  · set k₁ := linkFile (getAIT k (openedIno k path)).2 i o s with hk₁
    have hvol : k₁.vol = k.vol := (getAIT_vol k _).1
    have hself : (getAIT k (openedIno k path)).2.current = k.current := (sameProcs_getAIT k _).current
    have hfd : fdEntry k₁ i.val = some (i, o) := by
      have := i.isLt
      simp [fdEntry, hk₁, linkFile, Kernel.setPcb, Kernel.self, Function.update_self, this]
    have hs : (k₁.of o).oInptr = some s := by simp [hk₁, linkFile, Kernel.setPcb]
    have hof : (getAIT k (openedIno k path)).2.of = k.of := by
      rcases getAIT_cases k (openedIno k path) with ⟨he, -⟩ | ⟨s, he, -⟩ | ⟨s, he, -⟩ <;> rw [he]
    have hhead : (k₁.of o).oHead = 0 := by
      simp only [hk₁, linkFile, Kernel.setPcb, Function.update_self, hof]
      exact hidle o (getOFT_some hoft)
    have hic : (k₁.ai s).iIc = fileIc k (openedIno k path) := by
      simp only [hk₁, linkFile, Kernel.setPcb, Function.update_self]
      exact getAIT_fileIc hait
    obtain ⟨hentry, hprio⟩ := freads_loaded hfd hs hhead (word k.vol.stkBlk 0) (word k.vol.stkBlk 1)
    rw [hic, hvol] at hentry hprio
    have hprog : getProgramEntry k path (word k.vol.stkBlk 0) (word k.vol.stkBlk 1) =
        (0, (loaded k (openedIno k path)).1, (loaded k (openedIno k path)).2,
          (close (fread (fread k₁ i.val 4).2.2 i.val 4).2.2 i.val).2) := by
      unfold getProgramEntry
      rw [if_pos hfound, he]
      dsimp only
      rw [if_pos (by omega), hentry, hprio]
      rfl
    rw [hprog] at hsame
    generalize (close (fread (fread k₁ i.val 4).2.2 i.val 4).2.2 i.val).2 = k₂ at hprog hsame
    have hcur : k₂.current = k.current := hsame.current
    refine .inr ⟨hcan, ?_⟩
    simp only [exec, hprog]
    rw [if_neg (by decide)]
    simp [Kernel.setPcb, hcur]

end

/-- **`exec` runs the program its whole path names if and only if** the file
that its first component names can be opened and starts with the same two
words; a path that names no program has to be one that cannot be opened. -/
theorem exec_runs_program_iff {k : Kernel} (hidle : ∀ o, (k.of o).oInptr = none → (k.of o).oHead = 0)
    (path : CStr) : RunsProgram k path (exec k path) ↔
      (runnable k path → canOpen k (openedIno k path) ∧ loaded k (openedIno k path) =
        (fileWord k (pathToIno k.vol path rootDir) 0, fileWord k (pathToIno k.vol path rootDir) 1)) ∧
      (¬runnable k path → pathToIno k.vol path rootDir = noAddr ∨ ¬canOpen k (openedIno k path)) := by
  by_cases hlost : pathToIno k.vol path rootDir = noAddr
  · have hnot : ¬runnable k path := fun h => h.1 hlost
    have hexec : exec k path = (-1, k) := by simp [exec, getProgramEntry, hlost]
    rw [hexec]
    exact ⟨fun _ => ⟨fun h => absurd h hnot, fun _ => .inl hlost⟩,
      fun _ => ⟨fun h => absurd h hnot, fun _ => ⟨rfl, rfl, rfl⟩⟩⟩
  rcases exec_found hidle hlost with ⟨hno, hr, hpcb, hctx⟩ | ⟨hcan, hr, hpc, hpc', hdefp, hprio⟩
  · constructor
    · intro h
      refine ⟨fun hrun => ?_, fun _ => .inr hno⟩
      have hzero := (h.runs hrun).1
      rw [hr] at hzero
      exact absurd hzero (by decide)
    · rintro ⟨hrun, -⟩
      exact ⟨fun h => absurd (hrun h).1 hno, fun _ => ⟨hr, congrFun hpcb _, hctx⟩⟩
  · constructor
    · intro h
      refine ⟨fun hrun => ⟨hcan, ?_⟩, fun hnot => ?_⟩
      · obtain ⟨-, h1, -, h2, -⟩ := h.runs hrun
        rw [← h1, ← h2, hpc, hdefp]
      · have hneg := (h.fails hnot).1
        rw [hr] at hneg
        exact absurd hneg (by decide)
    · rintro ⟨hrun, hnot⟩
      refine ⟨fun h => ?_, fun h => ?_⟩
      · have hwords := (hrun h).2
        refine ⟨hr, ?_⟩
        rw [hpc, hpc', hdefp, hprio, hwords]
        exact ⟨rfl, rfl, rfl, rfl⟩
      · rcases hnot h with hl | hn
        · exact absurd hl hlost
        · exact absurd hcan hn

section

def programDir : ICommon := ⟨Mode.ifdir.code, 64, Vector.replicate 11 66, Vector.replicate 3 0⟩

def programFile : ICommon := ⟨Mode.ifreg.code, 8, Vector.replicate 11 67, Vector.replicate 3 0⟩

def programBlock : Block :=
  setDir (setDir zeroBlock 0 ⟨0, 1, Vector.replicate 26 dot⟩) 1 ⟨5, 1, Vector.replicate 26 97⟩

def programDisk : Image := fun x =>
  if x = 2 then setIc (setIc zeroBlock 0 programDir) 5 programFile
  else if x = 66 then programBlock
  else if x = 67 then ofWords 512 fun i => if i = 0 then 0x70010000 else 1
  else fullVol.disk x

def programVol : Vol := { fullVol with disk := programDisk }

theorem programVol_formatted : Formatted programVol := fullVol_formatted.of_header rfl fun _ _ => rfl

theorem programVol_dir (inode : INode) :
    readInode programVol inode 0 = { inode with iNumber := 0, iIc := programDir } := by
  have hblock : programVol.disk (inodeBlock 0) = setIc (setIc zeroBlock 0 programDir) 5 programFile := rfl
  rw [readInode_eq programVol_formatted (by decide), inodeAt, hblock, show (0 : UInt32).toNat % 8 = 0 from rfl,
    getIc_setIc_ne _ _ (by omega) (by omega), getIc_setIc_self _ _ (by omega)]

theorem programVol_file (inode : INode) :
    readInode programVol inode 5 = { inode with iNumber := 5, iIc := programFile } := by
  have hblock : programVol.disk (inodeBlock 5) = setIc (setIc zeroBlock 0 programDir) 5 programFile := rfl
  rw [readInode_eq programVol_formatted (by decide), inodeAt, hblock, show (5 : UInt32).toNat % 8 = 5 from rfl,
    getIc_setIc_self _ _ (by omega)]

theorem nameMatch_char {b : Block} {j : Nat} (h : (getDir b j).dNamlen = 1) (x : UInt8) :
    nameMatch [x] b j = decide (x = byte b (32*j+6)) := by
  unfold nameMatch
  rw [h]
  by_cases hx : x = byte b (32*j+6)
  · simp [strncmpEq, strlen, hx]
  · simp [strncmpEq, strlen, hx]

theorem programBlock_first : getDir programBlock 0 = ⟨0, 1, Vector.replicate 26 dot⟩ := by
  rw [programBlock, getDir_setDir_ne _ _ (by omega) (by omega), getDir_setDir_self _ _ (by omega)]

theorem programBlock_second : getDir programBlock 1 = ⟨5, 1, Vector.replicate 26 97⟩ := by
  rw [programBlock, getDir_setDir_self _ _ (by omega)]

theorem programVol_lookup : nameToIno programVol [dot] (readInode programVol ⟨0, 0, programVol.stkIc⟩ 0) = 0 ∧
    nameToIno programVol [97] (readInode programVol ⟨0, 0, programVol.stkIc⟩ 0) = 5 := by
  rw [programVol_dir]
  have hread : ∀ x, (getDataBlock programVol x ⟨0, 0, programDir⟩ (UInt32.ofNat (512 * 0))).2 = programBlock :=
    fun _ => rfl
  have hplan : scanPlan (programDir.icSize.toNat / 32) = [(0, 2)] := by decide
  have hscan : ∀ p, scanDir programVol ⟨0, 0, programDir⟩ p [(0, 2)] programVol.stkBlk =
      ((List.range 2).find? (p programBlock)).map fun j => (66, programBlock, j) := fun p => by
    simp only [scanDir, hread]
    cases (List.range 2).find? (p programBlock) <;> rfl
  have hrange : List.range 2 = [0, 1] := rfl
  have hname : byte programBlock (32*0+6) = dot ∧ byte programBlock (32*1+6) = 97 := by
    rw [programBlock, byte_setDir _ _ (by omega), byte_setDir _ _ (by omega), byte_setDir _ _ (by omega)]
    exact ⟨rfl, rfl⟩
  have hdot : nameMatch [dot] programBlock 0 = true := by
    rw [nameMatch_char (by rw [programBlock_first]), hname.1]
    decide
  have hother : nameMatch [97] programBlock 0 = false := by
    rw [nameMatch_char (by rw [programBlock_first]), hname.1]
    decide
  have hmatch : nameMatch [97] programBlock 1 = true := by
    rw [nameMatch_char (by rw [programBlock_second]), hname.2]
    decide
  unfold nameToIno
  simp only [hplan, hscan, hrange, List.find?_cons, hdot, hother, hmatch, Option.map_some,
    programBlock_first, programBlock_second]
  trivial

theorem fileIc_rootKernel (v : Vol) (ino : UInt32) :
    fileIc (rootKernel v) ino = (readInode v ⟨0, 0, v.stkIc⟩ ino).iIc := by
  unfold fileIc
  rw [List.find?_eq_none.mpr]
  · rfl
  · intro s _
    simp [rootKernel, powerOn, INode.zero, Mode.code]

theorem program_words : fileWord (rootKernel programVol) 5 0 = 0x70010000 ∧
    fileWord (rootKernel programVol) 5 1 = 1 := by
  unfold fileWord
  rw [fileIc_rootKernel, programVol_file]
  change word (ofWords 512 fun i => if i = 0 then (0x70010000 : UInt32) else 1) 0 = _ ∧
    word (ofWords 512 fun i => if i = 0 then (0x70010000 : UInt32) else 1) 1 = _
  rw [word_ofWords _ (by omega), word_ofWords _ (by omega)]
  exact ⟨rfl, rfl⟩

theorem program_path : pathToIno programVol [97] rootDir = 5 ∧
    pathToIno programVol [dot, slash, 97] rootDir = 5 ∧ pathToIno programVol [dot] rootDir = 0 := by
  obtain ⟨hdot, hname⟩ := programVol_lookup
  have htoks : tokens [97] = [[97]] ∧ tokens [dot, slash, 97] = [[dot], [97]] ∧ tokens [dot] = [[dot]] := by decide
  unfold pathToIno
  rw [htoks.1, htoks.2.1, htoks.2.2]
  simp only [walkPath, rootDir, hdot, hname]
  decide

theorem canOpen_rootKernel (v : Vol) {ino : UInt32} (h : isNeg ino = false) : canOpen (rootKernel v) ino := by
  refine ⟨Option.ne_none_iff_exists'.mpr ⟨0, rfl⟩, h, ?_, Option.ne_none_iff_exists'.mpr ⟨0, rfl⟩⟩
  have hfree : ¬Active (rootKernel v) 0 := fun hactive => hactive rfl
  rcases getAIT_cases (rootKernel v) ino with ⟨-, hall⟩ | ⟨s, he, -⟩ | ⟨s, he, -⟩
  · exact absurd (hall 0) hfree
  · simp [he]
  · simp [he]

theorem program_runnable {path : CStr} (h : pathToIno programVol path rootDir = 5) :
    runnable (rootKernel programVol) path := by
  unfold runnable
  rw [show (rootKernel programVol).vol = programVol from rfl, h, fileIc_rootKernel, programVol_file]
  exact ⟨by decide, rfl, by decide, (canOpen_rootKernel programVol (show isNeg 5 = false by decide)).1⟩

end

theorem exec_runs_program_a : RunsProgram (rootKernel programVol) [97] (exec (rootKernel programVol) [97]) := by
  obtain ⟨hpath, -⟩ := program_path
  have hopened : openedIno (rootKernel programVol) [97] = 5 := hpath
  refine (exec_runs_program_iff (fun _ _ => rfl) [97]).mpr
    ⟨fun _ => ?_, fun hnot => absurd (program_runnable hpath) hnot⟩
  rw [hopened, show pathToIno (rootKernel programVol).vol [97] rootDir = 5 from hpath]
  refine ⟨canOpen_rootKernel _ (by decide), ?_⟩
  unfold loaded
  rw [fileIc_rootKernel, programVol_file, if_pos (by decide), if_pos (by decide)]

/-- The root directory is taken for the program `./a`. -/
theorem exec_two_components : runnable (rootKernel programVol) [dot, slash, 97] ∧
    ¬RunsProgram (rootKernel programVol) [dot, slash, 97] (exec (rootKernel programVol) [dot, slash, 97]) := by
  obtain ⟨-, hpath, hdot⟩ := program_path
  have hrun := program_runnable hpath
  refine ⟨hrun, fun h => ?_⟩
  have hopened : openedIno (rootKernel programVol) [dot, slash, 97] = 0 := hdot
  have hcan := canOpen_rootKernel programVol (show isNeg 0 = false by decide)
  rcases exec_found (fun _ _ => rfl) hrun.1 with ⟨hno, -⟩ | ⟨-, -, hpc, -⟩
  · rw [hopened] at hno
    exact absurd hcan hno
  · have hsame := (h.runs hrun).2.1
    rw [show pathToIno (rootKernel programVol).vol [dot, slash, 97] rootDir = 5 from hpath, program_words.1] at hsame
    have hfirst : (loaded (rootKernel programVol) 0).1 = 0 := by
      unfold loaded fileWord
      rw [fileIc_rootKernel, programVol_dir, if_pos (by decide)]
      exact congrArg DirEnt.dIno programBlock_first
    rw [hpc, hopened, hfirst] at hsame
    exact absurd hsame (by decide)

end ArmKernel.Core
