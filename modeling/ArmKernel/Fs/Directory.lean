import ArmKernel.Fs.Inode
import ArmKernel.Lib.Strtok

/-! Directories and paths: entry comparison, lookup, append, removal and the
two path walks. A directory is scanned block by block with one buffer; the
last block only up to `dirs % 16`. -/
namespace ArmKernel.Fs

open Lib Lib.Bytes Lib.Strtok SuperBlock

/-- `strncmp( a, b, n ) == 0` on readers of two strings, from index `i` on. -/
def strncmpEq (a b : Nat → UInt8) : Nat → Nat → Bool
  | _, 0 => true
  | i, n+1 => if a i ≠ b i then false else if a i = 0 then true else strncmpEq a b (i+1) n

def strlen (s : CStr) : Nat := s.length

/-- The comparison of `name_to_ino` and `remove` with `dir[ j ]`: as many
characters as the longer of the two lengths, from wherever `d_name` starts. -/
def nameMatch (name : CStr) (dir : Block) (j : Nat) : Bool :=
  let namlen := (getDir dir j).dNamlen.toNat
  strncmpEq (fun k => name.getD k 0) (fun k => byte dir (32*j + 6 + k)) 0
    (if strlen name ≤ namlen then namlen else strlen name)

/-- Blocks to scan in a directory of `dirs` entries, each with the number of
its entries that are looked at. -/
def scanPlan (dirs : Nat) : List (Nat × Nat) :=
  if 0 < dirs then
    let blks := (dirs - 1) / 16 + 1
    (List.range (blks - 1)).map (fun i => (i, 16)) ++ [(blks - 1, dirs % 16)]
  else []

/-- Scan a directory for the first entry that satisfies `p`; on a hit the
address and the buffer of its block and its position in it. -/
def scanDir (v : Vol) (inode : INode) (p : Block → Nat → Bool) :
    List (Nat × Nat) → Block → Option (UInt32 × Block × Nat)
  | [], _ => none
  | (i, n) :: rest, dir =>
    match getDataBlock v dir inode (UInt32.ofNat (512 * i)) with
    | (addr, dir) =>
      match (List.range n).find? (p dir) with
      | some j => some (addr, dir, j)
      | none => scanDir v inode p rest dir

def nameToIno (v : Vol) (name : CStr) (inode : INode) : UInt32 :=
  match scanDir v inode (nameMatch name) (scanPlan (inode.iIc.icSize.toNat / 32)) v.stkBlk with
  | some (_, dir, j) => (getDir dir j).dIno
  | none => noAddr

/-- Assumes the directory non-empty. -/
def getLastDir (v : Vol) (inode : INode) : DirEnt :=
  let r := (inode.iIc.icSize / 32 - 1).toNat % 16
  getDir (getDataBlock v v.stkBlk inode (inode.iIc.icSize - 32)).2 r

/-- The active inode table: `ai[ AIT_LIMIT ]`. -/
abbrev ActiveInodes := Fin 128 → INode

/-- Is `ino` in an occupied slot of the table? -/
def inAit (ai : ActiveInodes) (ino : UInt32) : Bool :=
  (List.finRange 128).any fun i =>
    (ai i).iNumber == ino && (ai i).iIc.icMode != Mode.ifzero.code

def removable (v : Vol) (cwd : UInt32) (ai : ActiveInodes) (child : DirEnt) : UInt32 :=
  if child.dIno = cwd then noAddr
  else if inAit ai child.dIno then noAddr
  else
    -- check for non-empty directory
    let inode := readInode v ⟨0, 0, v.stkIc⟩ child.dIno
    if inode.iIc.icMode = Mode.ifdir.code ∧ 64 < inode.iIc.icSize then noAddr
    else child.dIno

theorem not_inAit {ai : ActiveInodes} {ino : UInt32} (h : inAit ai ino = false) (s : Fin 128)
    (hs : (ai s).iIc.icMode ≠ Mode.ifzero.code) : (ai s).iNumber ≠ ino := by
  intro hn
  unfold inAit at h
  rw [List.any_eq_false] at h
  refine h s (List.mem_finRange s) ?_
  simpa [hn] using hs

theorem removable_ne {v : Vol} {cwd : UInt32} {ai : ActiveInodes} {child : DirEnt}
    (h : removable v cwd ai child ≠ noAddr) :
    child.dIno ≠ noAddr ∧ child.dIno ≠ cwd ∧ inAit ai child.dIno = false ∧
      ¬((readInode v ⟨0, 0, v.stkIc⟩ child.dIno).iIc.icMode = Mode.ifdir.code ∧
        64 < (readInode v ⟨0, 0, v.stkIc⟩ child.dIno).iIc.icSize) := by
  unfold removable at h
  dsimp only at h
  split at h
  · exact absurd rfl h
  · next hcwd =>
    split at h
    · exact absurd rfl h
    · next hait =>
      split at h
      · exact absurd rfl h
      · next hbig => exact ⟨h, hcwd, by simpa using hait, hbig⟩

/-- What `remove` returns through its result and its two pointers. -/
structure Removed where
  ino : UInt32
  child : DirEnt
  parent : INode
  vol : Vol

def remove (v : Vol) (cwd : UInt32) (ai : ActiveInodes) (child : DirEnt) (parent : INode)
    (name : CStr) : Removed :=
  let hit := fun dir j => nameMatch name dir j && removable v cwd ai (getDir dir j) != noAddr
  match scanDir v parent hit (scanPlan (parent.iIc.icSize.toNat / 32)) v.stkBlk with
  | some (addr, dir, j) =>
    let child := getDir dir j
    let v := diskWr v addr (setDir dir j (getLastDir v parent)) 512
    let parent := { parent with iIc := { parent.iIc with icSize := parent.iIc.icSize - 32 } }
    ⟨child.dIno, child, parent, writeInode v parent⟩
  | none => ⟨noAddr, child, parent, v⟩

/-- `strncpy` copies `strlen( name )` characters whatever the size of `d_name`,
and no terminator. -/
def addInodeToDirectory (v : Vol) (par : INode) (ino : UInt32) (name : CStr) : INode × Vol :=
  let r := par.iIc.icSize.toNat / 32 % 16
  match (if r = 0 ∧ 0 < par.iIc.icSize then allocateDataBlockAddr v par par.iIc.icSize
    else (0, par, v)) with
  | (_, par, v) =>
    match getDataBlock v v.stkBlk par par.iIc.icSize with
    | (addr, dir) =>
      let dir := setDir dir r { getDir dir r with dIno := ino, dNamlen := UInt16.ofNat (strlen name) }
      let v := diskWr v addr (putBytes dir (32*r + 6) name) 512
      let par := { par with iIc := { par.iIc with icSize := par.iIc.icSize + 32 } }
      (par, writeInode v par)

/-! Paths. -/

def slash : UInt8 := 47

def dot : UInt8 := 46

/-- The successive results of `strtok( path, "/" )`. -/
def tokens (path : CStr) : List CStr :=
  (path.splitOn slash).filter fun t => !t.isEmpty

/-- What is left in the caller's buffer once `strtok` has cut off the first
token. -/
def strtokCut (path : CStr) : CStr :=
  path.takeWhile (· == slash) ++ (path.dropWhile (· == slash)).takeWhile (· != slash)

theorem tokens_single {name : CStr} (hne : name ≠ []) (hs : slash ∉ name) : tokens name = [name] := by
  unfold tokens
  rw [List.splitOn_eq_singleton hs]
  simp [hne]

theorem tokens_slash (path : CStr) : tokens (slash :: path) = tokens path := by
  unfold tokens
  rw [List.splitOn_cons_eq_if_modifyHead]
  simp

theorem tokens_slashes {skipped : CStr} (h : ∀ c ∈ skipped, c = slash) (path : CStr) :
    tokens (skipped ++ path) = tokens path := by
  induction skipped with
  | nil => rfl
  | cons c rest ih =>
    rw [h c List.mem_cons_self, List.cons_append, tokens_slash]
    exact ih fun c hc => h c (List.mem_cons_of_mem _ hc)

theorem tokens_name {name : CStr} (hne : name ≠ []) (hs : slash ∉ name) (path : CStr) :
    tokens (name ++ slash :: path) = name :: tokens path := by
  have hname := tokens_single hne hs
  unfold tokens at hname ⊢
  rw [List.splitOn_eq_splitOnP, List.splitOnP_append_cons _ _ (by simp), List.filter_append]
  exact congrArg (· ++ _) hname

theorem tokens_firstToken (path : CStr) : tokens path =
    match firstToken (· == slash) path with
    | none => []
    | some (tok, none) => [tok]
    | some (tok, some rest) => tok :: tokens rest := by
  have hskipped : ∀ c ∈ path.takeWhile (· == slash), c = slash := fun c hc => by
    simpa using List.all_eq_true.mp List.all_takeWhile c hc
  cases hnext : firstToken (· == slash) path with
  | none =>
    rw [← List.append_nil path, tokens_slashes fun c hc => by simpa using firstToken_eq_none.mp hnext c hc]
    rfl
  | some r =>
    obtain ⟨tok, left⟩ := r
    obtain ⟨hne, hplain, -, hcase⟩ := firstToken_eq_some hnext
    have hs : slash ∉ tok := fun hmem => by simpa using hplain slash hmem
    rcases hcase with ⟨rfl, hpath⟩ | ⟨d, rest, rfl, hd, hpath⟩
    · rw [hpath, tokens_slashes hskipped, tokens_single hne hs]
    · rw [hpath, tokens_slashes hskipped, show d = slash by simpa using hd, tokens_name hne hs]

theorem tokens_strtokCut (path : CStr) : tokens (strtokCut path) = (tokens path).take 1 := by
  have hskipped : ∀ c ∈ path.takeWhile (· == slash), c = slash := fun c hc => by
    simpa using List.all_eq_true.mp List.all_takeWhile c hc
  rw [strtokCut, tokens_slashes hskipped, tokens_firstToken path]
  cases hnext : firstToken (· == slash) path with
  | none =>
    have hnone : (path.dropWhile (· == slash)).takeWhile (· != slash) = [] := firstToken_none hnext
    rw [hnone]
    rfl
  | some r =>
    obtain ⟨tok, left⟩ := r
    obtain ⟨hne, hplain, htok, -⟩ := firstToken_eq_some hnext
    have hs : slash ∉ tok := fun hmem => by simpa using hplain slash hmem
    have hcut : (path.dropWhile (· == slash)).takeWhile (· != slash) = tok := htok.symm
    rw [hcut, tokens_single hne hs]
    cases left <;> rfl

def walkPath (v : Vol) : UInt32 → List CStr → UInt32
  | ino, [] => ino
  | ino, tok :: rest =>
    if ino = noAddr then noAddr
    else walkPath v (nameToIno v tok (readInode v ⟨0, 0, v.stkIc⟩ ino)) rest

def pathToIno (v : Vol) (path : CStr) (dir : UInt32) : UInt32 := walkPath v dir (tokens path)

/-- The locals of `path_to_ino2` when its loop ends. -/
structure Walk where
  tok : List CStr
  ino0 : UInt32
  ino : UInt32
  tok0 : CStr
  inode : INode

def walkPath2 (v : Vol) : List CStr → UInt32 → UInt32 → CStr → INode → Walk
  | [], ino0, ino, tok0, inode => ⟨[], ino0, ino, tok0, inode⟩
  | tok :: rest, ino0, ino, tok0, inode =>
    if ino = noAddr then ⟨tok :: rest, ino0, ino, tok0, inode⟩
    else
      let inode := readInode v inode ino
      walkPath2 v rest ino (nameToIno v tok inode) tok inode

/-- The part of `path_to_ino2` that creates a file `name` in directory `ino0`;
`inode` is the local left over from the walk. -/
def createFile (v : Vol) (inode : INode) (ino0 : UInt32) (name : CStr) : UInt32 × Vol :=
  match getFreeInode v inode with
  | (none, v) => (0xFFFFFFFE, v)
  | (some inode, v) =>
    match balloc v with
    | (a, v) =>
      let inode := { inode with iIc := inode.iIc.setDb 0 a }
      let v := writeInode v inode
      let parent := readInode v ⟨0, 0, v.stkIc⟩ ino0
      (inode.iNumber, (addInodeToDirectory v parent inode.iNumber name).2)

def pathToIno2 (v : Vol) (path : CStr) (dir : UInt32) : UInt32 × Vol :=
  let w := walkPath2 v (tokens path) dir dir [] ⟨0, 0, v.stkIc⟩
  if w.tok ≠ [] ∧ w.ino = noAddr then (noAddr, v)
  else if w.tok = [] ∧ w.ino = noAddr then createFile v w.inode w.ino0 w.tok0
  else (w.ino, v)

end ArmKernel.Fs
