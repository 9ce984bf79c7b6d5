import ArmKernel.Device.Disk
import ArmKernel.Device.DiskServer

/-! The two sides of the disk protocol agree: what `disk.c` writes `disk.py`
reads, and back, so that a call is one exchange after which both streams are
empty. -/
namespace ArmKernel.Device

open Lib Lib.Bytes Lib.Duplex Prog

/-! Hexadecimal digits. -/

theorem hexVal_itox : ∀ d < 16, hexVal (itox d) = some d := by decide

theorem xtoi_hexDigit : ∀ d < 16, xtoi (hexDigit d) = d := by decide

theorem isSpace_itox : ∀ d < 16, isSpace (itox d) = false := by decide

theorem nibbles (b : UInt8) : UInt8.ofNat (16 * (b.toNat / 16 % 16) + b.toNat % 16) = b := by
  have hb := b.toNat_lt
  rw [show 16 * (b.toNat / 16 % 16) + b.toNat % 16 = b.toNat by omega, UInt8.ofNat_toNat]

theorem nibbles_or : ∀ h < 16, ∀ l < 16, UInt8.ofInt ((h : Nat) * 16) ||| UInt8.ofInt (l : Nat) =
    UInt8.ofNat (16 * h + l) := by
  decide

theorem unhexlify_hexUpper (xs : List UInt8) : unhexlify (xs.flatMap hexUpper) = some xs := by
  induction xs with
  | nil => rfl
  | cons x xs ih =>
    rw [List.flatMap_cons]
    simp only [hexUpper, List.cons_append, List.nil_append, unhexlify]
    rw [hexVal_itox _ (by omega), hexVal_itox _ (by omega)]
    change (unhexlify (xs.flatMap hexUpper)).bind _ = _
    rw [ih]
    exact congrArg (fun b => some (b :: xs)) (nibbles x)

theorem isSpace_hexUpper {xs : List UInt8} {b : UInt8} (h : b ∈ xs.flatMap hexUpper) : isSpace b = false := by
  obtain ⟨x, -, hb⟩ := List.mem_flatMap.mp h
  rw [hexUpper, List.mem_cons, List.mem_singleton] at hb
  obtain rfl | rfl := hb
  · exact isSpace_itox _ (by omega)
  · exact isSpace_itox _ (by omega)

theorem does_geth_hexDigit (b : UInt8) :
    geth.Does [.get (hexDigit (b.toNat / 16)), .get (hexDigit (b.toNat % 16))] b := by
  have hb := b.toNat_lt
  have h := does_geth (hexDigit (b.toNat / 16)) (hexDigit (b.toNat % 16))
  rw [xtoi_hexDigit _ (by omega), xtoi_hexDigit _ (by omega), nibbles_or _ (by omega) _ (by omega),
    show 16 * (b.toNat / 16) + b.toNat % 16 = b.toNat by omega, UInt8.ofNat_toNat] at h
  exact h

theorem does_dataPuth (xs : List UInt8) : (dataPuth xs).Does ((xs.flatMap hexUpper).map .put) () := by
  induction xs with
  | nil => exact .ret ()
  | cons x xs ih =>
    rw [List.flatMap_cons, List.map_append]
    exact (does_puth x).bind ih

theorem does_dataGeth (xs : List UInt8) : (dataGeth xs.length).Does ((hexlify xs).map .get) xs := by
  induction xs with
  | nil => exact .ret []
  | cons x xs ih =>
    have h : (dataGeth (x :: xs).length).Does _ (x :: xs) :=
      (does_geth_hexDigit x).bind (ih.bind (.ret (x :: xs)))
    rw [List.append_nil] at h
    exact h

/-! The requests as they go over the line. -/

def addrBytes (a : UInt32) : List UInt8 := [leByte a 0, leByte a 1, leByte a 2, leByte a 3]

def wrLine (a : UInt32) (x : List UInt8) : List UInt8 :=
  [32].intercalate [reqWr, (addrBytes a).flatMap hexUpper, x.flatMap hexUpper]

def rdLine (a : UInt32) : List UInt8 := [32].intercalate [reqRd, (addrBytes a).flatMap hexUpper]

theorem does_addrPuth (a : UInt32) : (addrPuth a).Does (((addrBytes a).flatMap hexUpper).map .put) () :=
  (does_puth _).bind ((does_puth _).bind ((does_puth _).bind (does_puth _)))

theorem wrLine_eq (a : UInt32) (x : List UInt8) : wrLine a x ++ [10] = hexUpper 0x01 ++ ([32] ++
    ((addrBytes a).flatMap hexUpper ++ ([32] ++ (x.flatMap hexUpper ++ [10])))) := by
  simp [wrLine, List.intercalate, reqWr, hexUpper, itox]

theorem rdLine_eq (a : UInt32) :
    rdLine a ++ [10] = hexUpper 0x02 ++ ([32] ++ ((addrBytes a).flatMap hexUpper ++ [10])) := by
  simp [rdLine, List.intercalate, reqRd, hexUpper, itox]

theorem does_wrAttempt (a : UInt32) (x : List UInt8) :
    (wrAttempt a x).Does ((wrLine a x ++ [10]).map .put ++ (ackOkay ++ [10]).map .get) (some ()) := by
  have h : (wrAttempt a x).Does _ (some ()) := (does_puth 0x01).bind ((does_putc 32).bind
    ((does_addrPuth a).bind ((does_putc 32).bind ((does_dataPuth x).bind ((does_putc 10).bind
      ((does_geth_hexDigit 0).bind ((does_getc 10).bind (.ret (some ())))))))))
  rw [wrLine_eq]
  simp only [List.map_append, List.append_assoc]
  exact h

theorem does_rdAttempt (a : UInt32) (x : List UInt8) :
    (rdAttempt a x.length).Does ((rdLine a ++ [10]).map .put ++ (ackLine ackOkay [x] ++ [10]).map .get)
      (some x) := by
  have h : (rdAttempt a x.length).Does _ (some x) := (does_puth 0x02).bind ((does_putc 32).bind
    ((does_addrPuth a).bind ((does_putc 10).bind ((does_geth_hexDigit 0).bind ((does_getc 32).bind
      ((does_dataGeth x).bind ((does_getc 10).bind (.ret (some x)))))))))
  have hack : ackLine ackOkay [x] ++ [10] =
      [hexDigit ((0 : UInt8).toNat / 16), hexDigit ((0 : UInt8).toNat % 16)] ++ ([32] ++ (hexlify x ++ [10])) := by
    simp [ackLine, List.intercalate, ackOkay, hexDigit]
  rw [rdLine_eq, hack]
  simp only [List.map_append, List.append_assoc]
  exact h

/-! What the server makes of a line. -/

theorem strip_blanks {line blanks : List UInt8} {b c : UInt8} {l : List UInt8} (hb : line.head? = some b)
    (hbs : isSpace b = false) (hl : line = l ++ [c]) (hcs : isSpace c = false)
    (hblanks : ∀ x ∈ blanks, isSpace x = true) : strip (line ++ blanks) = line := by
  have hfront : (line ++ blanks).dropWhile isSpace = line ++ blanks := by
    cases line with
    | nil => cases hb
    | cons x rest =>
      cases hb
      rw [List.cons_append, List.dropWhile_cons, if_neg (by simp [hbs])]
  rw [strip, hfront]
  clear hfront
  induction blanks using List.reverseRecOn with
  | nil => rw [List.append_nil, hl, List.rdropWhile_concat_neg _ _ _ (by simp [hcs])]
  | append_singleton blanks x ih =>
    have hall : ∀ x ∈ blanks, isSpace x = true := fun y hy => hblanks y (List.mem_append_left _ hy)
    rw [← List.append_assoc, List.rdropWhile_concat_pos _ _ _ (hblanks x (by simp))]
    exact ih hall

def Field (f : List UInt8) : Prop := f ≠ [] ∧ ∀ b ∈ f, isSpace b = false

theorem joined_fields {f : List UInt8} {fs : List (List UInt8)} (hf : ∀ g ∈ f :: fs, Field g) :
    (∃ b, ([32].intercalate (f :: fs)).head? = some b ∧ isSpace b = false) ∧
    (∃ l c, [32].intercalate (f :: fs) = l ++ [c] ∧ isSpace c = false) ∧
    ∀ b ∈ [32].intercalate (f :: fs), b = 32 ∨ isSpace b = false := by
  induction fs generalizing f with
  | nil =>
    obtain ⟨hne, hs⟩ := hf f (List.mem_singleton.mpr rfl)
    rw [List.intercalate_singleton]
    refine ⟨?_, ?_, fun b hb => .inr (hs b hb)⟩
    · obtain ⟨b, rest, rfl⟩ := List.exists_cons_of_ne_nil hne
      exact ⟨b, rfl, hs b List.mem_cons_self⟩
    · refine ⟨f.dropLast, f.getLast hne, (List.dropLast_append_getLast hne).symm, ?_⟩
      exact hs _ (List.getLast_mem hne)
  | cons g fs ih =>
    obtain ⟨hne, hs⟩ := hf f List.mem_cons_self
    obtain ⟨-, ⟨l, c, hl, hc⟩, hall⟩ := ih fun g hg => hf g (List.mem_cons_of_mem f hg)
    rw [List.intercalate_cons_cons]
    refine ⟨?_, ⟨f ++ [32] ++ l, c, by rw [hl]; simp, hc⟩, fun b hb => ?_⟩
    · obtain ⟨b, rest, rfl⟩ := List.exists_cons_of_ne_nil hne
      exact ⟨b, rfl, hs b List.mem_cons_self⟩
    · rw [List.mem_append, List.mem_append, List.mem_singleton] at hb
      obtain (hb | hb) | hb := hb
      · exact .inr (hs b hb)
      · exact .inl hb
      · exact hall b hb

theorem split_blanks {f : List UInt8} {fs : List (List UInt8)} {blanks : List UInt8} (hf : ∀ g ∈ f :: fs, Field g)
    (hblanks : ∀ x ∈ blanks, isSpace x = true) :
    (strip ([32].intercalate (f :: fs) ++ blanks)).splitOn 32 = f :: fs := by
  obtain ⟨⟨b, hb, hbs⟩, ⟨l, c, hl, hc⟩, -⟩ := joined_fields hf
  rw [strip_blanks hb hbs hl hc hblanks]
  apply List.splitOn_intercalate
  · intro g hg hmem
    exact absurd ((hf g hg).2 32 hmem) (by decide)
  · exact List.cons_ne_nil f fs

theorem split_request {f : List UInt8} {fs : List (List UInt8)} (hf : ∀ g ∈ f :: fs, Field g) :
    (strip ([32].intercalate (f :: fs) ++ [10])).splitOn 32 = f :: fs :=
  split_blanks hf (by simp [isSpace])

theorem eol_not_mem_request {f : List UInt8} {fs : List (List UInt8)} (hf : ∀ g ∈ f :: fs, Field g) :
    10 ∉ [32].intercalate (f :: fs) := by
  intro hmem
  obtain h | h := (joined_fields hf).2.2 10 hmem
  · exact absurd h (by decide)
  · exact absurd h (by decide)

theorem field_hexUpper {xs : List UInt8} (h : xs ≠ []) : Field (xs.flatMap hexUpper) := by
  refine ⟨?_, fun b hb => isSpace_hexUpper hb⟩
  obtain ⟨x, rest, rfl⟩ := List.exists_cons_of_ne_nil h
  simp [hexUpper]

theorem field_addr (a : UInt32) : Field ((addrBytes a).flatMap hexUpper) :=
  field_hexUpper (List.cons_ne_nil _ _)

theorem wrLine_fields (a : UInt32) {x : List UInt8} (hx : x ≠ []) :
    ∀ g ∈ [reqWr, (addrBytes a).flatMap hexUpper, x.flatMap hexUpper], Field g := by
  have hcode : Field reqWr := ⟨by decide, by simp [reqWr, isSpace]⟩
  simp [hcode, field_hexUpper hx, field_addr a]

theorem rdLine_fields (a : UInt32) : ∀ g ∈ [reqRd, (addrBytes a).flatMap hexUpper], Field g := by
  have hcode : Field reqRd := ⟨by decide, by simp [reqRd, isSpace]⟩
  simp [hcode, field_addr a]

def signed (a : UInt32) : Int := if a.toNat < 2^31 then (a.toNat : Int) else a.toNat - 2^32

theorem unpackL_addrBytes (a : UInt32) : unpackL (addrBytes a) = some (signed a) := by
  simp only [unpackL, addrBytes, leWord_leByte, signed]

theorem serve_wr (args : Args) (fd : List UInt8) (a : UInt32) {x : List UInt8} (hx : x ≠ []) :
    serve args fd (wrLine a x) =
      if signed a ≥ args.blockNum then some (fd, ackFail ++ [10])
      else (seek (signed a * args.blockLen)).map fun pos => (fileWrite fd pos x, ackOkay ++ [10]) := by
  unfold serve wrLine
  rw [split_request (wrLine_fields a hx)]
  have hne : (some reqWr = some reqConf) = False := by decide
  simp only [handle, wr, List.getElem?_cons_zero, List.getElem?_cons_succ, hne, if_false, if_true,
    Option.bind_eq_bind, Option.bind_some, unhexlify_hexUpper, unpackL_addrBytes, Option.pure_def]
  split
  · rfl
  · cases seek (signed a * args.blockLen) <;> rfl

theorem serve_rd (args : Args) (fd : List UInt8) (a : UInt32) :
    serve args fd (rdLine a) =
      if signed a ≥ args.blockNum then some (fd, ackFail ++ [10])
      else (seek (signed a * args.blockLen)).map fun pos =>
        (fd, ackLine ackOkay [fileRead fd pos args.blockLen] ++ [10]) := by
  unfold serve rdLine
  rw [split_request (rdLine_fields a)]
  have hne : (some reqRd = some reqConf) = False := by decide
  have hne' : (some reqRd = some reqWr) = False := by decide
  simp only [handle, rd, List.getElem?_cons_zero, List.getElem?_cons_succ, hne, hne', if_false, if_true,
    Option.bind_eq_bind, Option.bind_some, unhexlify_hexUpper, unpackL_addrBytes, Option.pure_def]
  split
  · rfl
  · cases seek (signed a * args.blockLen) <;> rfl

/-! One call. -/

theorem does_retry {α : Type} {attempt : Prog (Option α)} {acts : List Act} {a : α}
    (h : attempt.Does acts (some a)) (i n : Nat) : (retry attempt i (n+1)).Does acts (some (i, a)) := by
  have h' : (retry attempt i (n+1)).Does (acts ++ []) (some (i, a)) := h.bind (.ret _)
  rwa [List.append_nil] at h'

theorem seek_block {a : UInt32} (h : a.toNat < 2^31) : seek (signed a * (512 : Nat)) = some (a.toNat * 512) := by
  rw [signed, if_pos h, seek, if_neg (by omega)]
  congr 1

theorem seek_negative {a : UInt32} (h : ¬a.toNat < 2^31) : seek (signed a * (512 : Nat)) = none := by
  have := a.toNat_lt
  rw [signed, if_neg h, seek, if_pos (by omega)]

theorem signed_lt {a : UInt32} {n : Nat} (h : a.toNat < n) : ¬signed a ≥ n := by
  have := a.toNat_lt
  unfold signed
  split <;> omega

theorem signed_high {a : UInt32} (h : ¬a.toNat < 2^31) (n : Nat) : ¬signed a ≥ n := by
  have := a.toNat_lt
  unfold signed
  rw [if_neg h]
  omega

section

variable {args : Args} {fd : List UInt8} {a : UInt32}

theorem diskWr_settles {x : List UInt8} (hlen : args.blockLen = 512) (ha : a.toNat < args.blockNum)
    (hlow : a.toNat < 2^31) (hx : x ≠ []) :
    Settles 10 (serve args) ⟨diskWr a x, [], [], some fd⟩
      ⟨.ret (some (0, ())), [], [], some (fileWrite fd (a.toNat * 512) x)⟩ := by
  have hs := serve_wr args fd a hx
  rw [if_neg (signed_lt ha), hlen, seek_block hlow] at hs
  have hd : (diskWr a x).Does ((wrLine a x ++ [10]).map .put ++ ((ackOkay ++ [10]).map .get ++ []))
      (some (0, ())) := by
    rw [List.append_nil]
    exact does_retry (does_wrAttempt a x) 0 2
  obtain ⟨q, hq, hr⟩ := reaches_exchange (eol_not_mem_request (wrLine_fields a hx)) hs hd
  exact settles_returned hq hr

theorem diskRd_settles (hlen : args.blockLen = 512) (ha : a.toNat < args.blockNum) (hlow : a.toNat < 2^31)
    (hfd : fd.length = args.blockNum * 512) :
    Settles 10 (serve args) ⟨diskRd a 512, [], [], some fd⟩
      ⟨.ret (some (0, fileRead fd (a.toNat * 512) 512)), [], [], some fd⟩ := by
  have hs := serve_rd args fd a
  rw [if_neg (signed_lt ha), hlen, seek_block hlow] at hs
  have hn : (fileRead fd (a.toNat * 512) 512).length = 512 := by
    simp only [fileRead, List.length_take, List.length_drop]
    omega
  have hd : (diskRd a 512).Does ((rdLine a ++ [10]).map .put ++
      ((ackLine ackOkay [fileRead fd (a.toNat * 512) 512] ++ [10]).map .get ++ []))
      (some (0, fileRead fd (a.toNat * 512) 512)) := by
    have h := does_rdAttempt a (fileRead fd (a.toNat * 512) 512)
    rw [hn] at h
    rw [List.append_nil]
    exact does_retry h 0 2
  obtain ⟨q, hq, hr⟩ := reaches_exchange (eol_not_mem_request (rdLine_fields a)) hs hd
  exact settles_returned hq hr

theorem diskWr_hangs {x : List UInt8} (hlen : args.blockLen = 512) (hhigh : ¬a.toNat < 2^31) (hx : x ≠ []) :
    ∃ f, Settles 10 (serve args) ⟨diskWr a x, [], [], some fd⟩ ⟨.get f, [], [], none⟩ := by
  have hs := serve_wr args fd a hx
  rw [if_neg (signed_high hhigh _), hlen, seek_negative hhigh] at hs
  exact settles_failed (eol_not_mem_request (wrLine_fields a hx)) hs (does_retry (does_wrAttempt a x) 0 2)

theorem diskRd_hangs (hlen : args.blockLen = 512) (hhigh : ¬a.toNat < 2^31) :
    ∃ f, Settles 10 (serve args) ⟨diskRd a 512, [], [], some fd⟩ ⟨.get f, [], [], none⟩ := by
  have hs := serve_rd args fd a
  rw [if_neg (signed_high hhigh _), hlen, seek_negative hhigh] at hs
  have h := does_rdAttempt a (List.replicate 512 0)
  rw [List.length_replicate] at h
  exact settles_failed (eol_not_mem_request (rdLine_fields a)) hs (does_retry h 0 2)

end

/-! Sequences of calls. -/

inductive DiskCall where
  | wr (a : UInt32) (x : List UInt8)
  | rd (a : UInt32)

def DiskCall.addr : DiskCall → UInt32
  | .wr a _ => a
  | .rd a => a

def DiskCall.Valid (blockNum : Nat) : DiskCall → Prop
  | .wr a x => a.toNat < blockNum ∧ 1 ≤ x.length ∧ x.length ≤ 512
  | .rd a => a.toNat < blockNum

/-- A call with both streams empty, however the two sides take turns, returns
from its first attempt with both streams empty again: a write has replaced the
first bytes of its block and nothing else, a read returns its block. -/
def CallOk (args : Args) (fd fd' : List UInt8) : DiskCall → Prop
  | .wr a x => Settles 10 (serve args) ⟨diskWr a x, [], [], some fd⟩ ⟨.ret (some (0, ())), [], [], some fd'⟩ ∧
    ∀ i, fd'[i]? = if a.toNat * 512 ≤ i ∧ i < a.toNat * 512 + x.length then x[i - a.toNat * 512]? else fd[i]?
  | .rd a => fd' = fd ∧ ∃ y, y.length = 512 ∧ (∀ i < 512, y[i]? = fd[a.toNat * 512 + i]?) ∧
    Settles 10 (serve args) ⟨diskRd a 512, [], [], some fd⟩ ⟨.ret (some (0, y)), [], [], some fd'⟩

def InStep (args : Args) : List UInt8 → List DiskCall → Prop
  | _, [] => True
  | fd, c :: rest => ∃ fd', CallOk args fd fd' c ∧ InStep args fd' rest

theorem getElem?_fileWrite {fd : List UInt8} {pos : Nat} {x : List UInt8} (h : pos + x.length ≤ fd.length) (i : Nat) :
    (fileWrite fd pos x)[i]? = if pos ≤ i ∧ i < pos + x.length then x[i - pos]? else fd[i]? := by
  have h0 : pos - fd.length = 0 := by omega
  rw [fileWrite, h0, List.replicate_zero, List.append_nil]
  by_cases h1 : i < pos
  · rw [List.append_assoc, List.getElem?_append_left (by simp; omega), List.getElem?_take_of_lt h1,
      if_neg (by omega)]
  · have hpos : (fd.take pos).length = pos := by simp; omega
    rw [List.append_assoc, List.getElem?_append_right (by omega), hpos]
    by_cases h2 : i < pos + x.length
    · rw [List.getElem?_append_left (by omega), if_pos ⟨by omega, h2⟩]
    · rw [List.getElem?_append_right (by omega), List.getElem?_drop, if_neg (by omega)]
      congr 1
      omega

theorem length_fileWrite {fd : List UInt8} {pos : Nat} {x : List UInt8} (h : pos + x.length ≤ fd.length) :
    (fileWrite fd pos x).length = fd.length := by
  simp only [fileWrite, List.length_append, List.length_take, List.length_replicate, List.length_drop]
  omega

theorem block_end {a n len : Nat} (ha : a < n) (hlen : len ≤ 512) : a * 512 + len ≤ n * 512 := by
  have : (a+1) * 512 ≤ n * 512 := Nat.mul_le_mul_right 512 ha
  omega

theorem callOk_low {args : Args} {fd : List UInt8} {c : DiskCall} (hlen : args.blockLen = 512)
    (hfd : fd.length = args.blockNum * 512) (hv : c.Valid args.blockNum) (hlow : c.addr.toNat < 2^31) :
    ∃ fd', fd'.length = args.blockNum * 512 ∧ CallOk args fd fd' c := by
  cases c with
  | wr a x =>
    obtain ⟨ha, h1, h512⟩ := hv
    have hfits : a.toNat * 512 + x.length ≤ fd.length := by
      rw [hfd]
      exact block_end ha h512
    exact ⟨fileWrite fd (a.toNat * 512) x, (length_fileWrite hfits).trans hfd,
      diskWr_settles hlen ha hlow (List.length_pos_iff.mp h1), getElem?_fileWrite hfits⟩
  | rd a =>
    have hfits := block_end hv (le_refl 512)
    refine ⟨fd, hfd, rfl, fileRead fd (a.toNat * 512) 512, ?_, fun i hi => ?_, diskRd_settles hlen hv hlow hfd⟩
    · simp only [fileRead, List.length_take, List.length_drop]
      omega
    · rw [fileRead, List.getElem?_take_of_lt hi, List.getElem?_drop]

theorem CallOk.unique {args : Args} {fd fd' fd'' : List UInt8} {c : DiskCall} (h : CallOk args fd fd' c)
    (h' : CallOk args fd fd'' c) : fd'' = fd' := by
  cases c with
  | wr a x =>
    cases h.1.unique h'.1
    rfl
  | rd a => exact h'.1.trans h.1.symm

theorem not_callOk_high {args : Args} {fd fd' : List UInt8} {c : DiskCall} (hlen : args.blockLen = 512)
    (hv : c.Valid args.blockNum) (hhigh : ¬c.addr.toNat < 2^31) : ¬CallOk args fd fd' c := by
  cases c with
  | wr a x =>
    rintro ⟨hs, -⟩
    obtain ⟨f, hf⟩ := diskWr_hangs hlen hhigh (List.length_pos_iff.mp hv.2.1)
    cases hs.unique hf
  | rd a =>
    rintro ⟨-, y, -, -, hs⟩
    obtain ⟨f, hf⟩ := diskRd_hangs hlen hhigh
    cases hs.unique hf

/-- **Kernel and server stay in step exactly while the addresses are below
`2^31`**: for every sequence of valid calls on an image of `block_num` blocks,
every call is one exchange that does what it should to the image and leaves
both streams empty if and only if no address has its top bit set. -/
theorem disk_in_step_iff (args : Args) (hlen : args.blockLen = 512) (fd : List UInt8)
    (hfd : fd.length = args.blockNum * 512) (calls : List DiskCall)
    (hv : ∀ c ∈ calls, c.Valid args.blockNum) :
    InStep args fd calls ↔ ∀ c ∈ calls, c.addr.toNat < 2^31 := by
  induction calls generalizing fd with
  | nil => simp [InStep]
  | cons c rest ih =>
    have hvc := hv c List.mem_cons_self
    have hvr : ∀ c ∈ rest, c.Valid args.blockNum := fun c hc => hv c (List.mem_cons_of_mem _ hc)
    rw [List.forall_mem_cons]
    constructor
    · rintro ⟨fd', hc, hrest⟩
      have hlow : c.addr.toNat < 2^31 := by
        by_contra hhigh
        exact not_callOk_high hlen hvc hhigh hc
      obtain ⟨fd'', hfd'', hc''⟩ := callOk_low hlen hfd hvc hlow
      obtain rfl := hc.unique hc''
      exact ⟨hlow, (ih _ hfd'' hvr).mp hrest⟩
    · rintro ⟨hlow, hrest⟩
      obtain ⟨fd', hfd', hc⟩ := callOk_low hlen hfd hvc hlow
      exact ⟨fd', hc, (ih fd' hfd' hvr).mpr hrest⟩

theorem disk_in_step_write_read :
    InStep ⟨2, 512⟩ (List.replicate 1024 0) [.wr 1 [7, 8], .rd 1, .wr 0 [9]] := by
  refine (disk_in_step_iff ⟨2, 512⟩ rfl (List.replicate 1024 0) List.length_replicate _ ?_).mpr ?_
  · intro c hc
    simp only [List.mem_cons, List.not_mem_nil, or_false] at hc
    obtain rfl | rfl | rfl := hc
    · exact ⟨by decide, by decide, by decide⟩
    · exact (by decide : (1 : UInt32).toNat < 2)
    · exact ⟨by decide, by decide, by decide⟩
  · decide

/-- On a disk of `2^31 + 1` blocks, block `2^31` cannot be written: the server
unpacks its address as `-2^31` and fails in `fd.seek`. -/
theorem disk_out_of_step :
    (DiskCall.wr 0x80000000 [1]).Valid (2^31 + 1) ∧
    ¬InStep ⟨2^31 + 1, 512⟩ (List.replicate ((2^31 + 1) * 512) 0) [.wr 0x80000000 [1]] := by
  have hv : (DiskCall.wr 0x80000000 [1]).Valid (2^31 + 1) := ⟨by decide, by decide, by decide⟩
  refine ⟨hv, ?_⟩
  rintro ⟨fd', hc, -⟩
  exact not_callOk_high rfl hv (by decide) hc

end ArmKernel.Device
