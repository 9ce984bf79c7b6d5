import ArmKernel.Device.RoundTrip

/-! Addresses that the disk does not have. `disk.py` compares the address, which
it unpacks as a signed number, with the number of blocks from one side only. -/
namespace ArmKernel.Device

open Lib Lib.Bytes Lib.Duplex Prog

/-- What the kernel writes and reads when a request is answered `ACK_FAIL`. -/
def refusal (line : List UInt8) : List Act := (line ++ [10]).map .put ++ (ackFail ++ [10]).map .get

def refusals (n : Nat) (line : List UInt8) : List Act := (List.replicate n (refusal line)).flatten

/-- Every attempt of the call is answered `ACK_FAIL`; the call returns without
data, with the image as it was, both streams empty and the server waiting for
the next request. -/
structure Refused {α : Type} (args : Args) (fd line : List UInt8) (call : Prog (Option (Nat × α))) : Prop where
  answer : serve args fd line = some (fd, ackFail ++ [10])
  attempts : call.Does (refusals retryLimit line) none
  settles : Settles 10 (serve args) ⟨call, [], [], some fd⟩ ⟨.ret none, [], [], some fd⟩

/-! Attempts that are refused. -/

theorem does_wrAttempt_refused (a : UInt32) (x : List UInt8) : (wrAttempt a x).Does (refusal (wrLine a x)) none := by
  have h : (wrAttempt a x).Does _ none := (does_puth 0x01).bind ((does_putc 32).bind
    ((does_addrPuth a).bind ((does_putc 32).bind ((does_dataPuth x).bind ((does_putc 10).bind
      ((does_geth_hexDigit 1).bind ((does_getc 10).bind (.ret none))))))))
  rw [refusal, wrLine_eq]
  simp only [List.map_append, List.append_assoc]
  exact h

theorem does_rdAttempt_refused (a : UInt32) (n : Nat) : (rdAttempt a n).Does (refusal (rdLine a)) none := by
  have h : (rdAttempt a n).Does _ none := (does_puth 0x02).bind ((does_putc 32).bind
    ((does_addrPuth a).bind ((does_putc 10).bind ((does_geth_hexDigit 1).bind ((does_getc 10).bind
      (.ret none))))))
  rw [refusal, rdLine_eq]
  simp only [List.map_append, List.append_assoc]
  exact h

section

variable {α : Type} {args : Args} {fd line : List UInt8}

theorem does_retry_refused {attempt : Prog (Option α)} (h : attempt.Does (refusal line) none) (i n : Nat) :
    (retry attempt i n).Does (refusals n line) none := by
  induction n generalizing i with
  | zero => exact .ret none
  | succ n ih =>
    rw [refusals, List.replicate_succ, List.flatten_cons]
    exact h.bind (ih (i + 1))

theorem reaches_refusals (hl : 10 ∉ line) (hs : serve args fd line = some (fd, ackFail ++ [10])) {n : Nat}
    {p : Prog α} {a : α} (hp : p.Does (refusals n line) a) :
    Reaches 10 (serve args) ⟨p, [], [], some fd⟩ ⟨.ret a, [], [], some fd⟩ := by
  induction n generalizing p with
  | zero =>
    cases hp
    exact .refl
  | succ n ih =>
    rw [refusals, List.replicate_succ, List.flatten_cons, refusal, List.append_assoc] at hp
    obtain ⟨q, hq, hr⟩ := reaches_exchange hl hs hp
    exact hr.trans (ih hq)

theorem retry_refused {attempt : Prog (Option α)} (hl : 10 ∉ line)
    (hs : serve args fd line = some (fd, ackFail ++ [10])) (h : attempt.Does (refusal line) none) :
    Refused args fd line (retry attempt 0 retryLimit) := by
  have hdoes := does_retry_refused h 0 retryLimit
  exact ⟨hs, hdoes, settles_returned (.ret none) (reaches_refusals hl hs hdoes)⟩

end

/-! What the server makes of the address. -/

theorem serve_wr_nil (args : Args) (fd : List UInt8) (a : UInt32) : serve args fd (wrLine a []) = none := by
  have hfields : ∀ g ∈ [reqWr, (addrBytes a).flatMap hexUpper], Field g := by
    intro g hg
    exact wrLine_fields a (x := [0]) (by simp) g (by simp at hg ⊢; tauto)
  have hline : wrLine a [] = [32].intercalate [reqWr, (addrBytes a).flatMap hexUpper] ++ [32] := by
    simp [wrLine, List.intercalate]
  have hsplit : (strip (wrLine a [] ++ [10])).splitOn 32 = [reqWr, (addrBytes a).flatMap hexUpper] := by
    rw [hline, List.append_assoc]
    exact split_blanks hfields (by simp [isSpace])
  unfold serve
  rw [hsplit]
  have hne : (some reqWr = some reqConf) = False := by decide
  simp only [handle, wr, List.getElem?_cons_zero, List.getElem?_cons_succ, List.getElem?_nil, hne, if_false, if_true,
    Option.bind_eq_bind, Option.bind_some, Option.bind_none, unhexlify_hexUpper, unpackL_addrBytes, Option.map_none]

section

variable {args : Args} {fd : List UInt8} {a : UInt32}

theorem signed_ge (ha : args.blockNum ≤ a.toNat) (hlow : a.toNat < 2^31) : signed a ≥ args.blockNum := by
  rw [signed, if_pos hlow]
  omega

theorem diskWr_refused (ha : args.blockNum ≤ a.toNat) (hlow : a.toNat < 2^31) {x : List UInt8} (hx : x ≠ []) :
    Refused args fd (wrLine a x) (diskWr a x) := by
  refine retry_refused (eol_not_mem_request (wrLine_fields a hx)) ?_ (does_wrAttempt_refused a x)
  rw [serve_wr _ _ _ hx, if_pos (signed_ge ha hlow)]

theorem diskRd_refused (ha : args.blockNum ≤ a.toNat) (hlow : a.toNat < 2^31) (n : Nat) :
    Refused args fd (rdLine a) (diskRd a n) := by
  refine retry_refused (eol_not_mem_request (rdLine_fields a)) ?_ (does_rdAttempt_refused a n)
  rw [serve_rd, if_pos (signed_ge ha hlow)]

theorem not_refused_high {α : Type} {line : List UInt8} (hhigh : ¬a.toNat < 2^31)
    {pos : Option Nat} {image answer : Nat → List UInt8} (call : Prog (Option (Nat × α)))
    (hs : serve args fd line = if signed a ≥ args.blockNum then some (fd, ackFail ++ [10])
      else pos.map fun p => (image p, answer p)) (hne : ∀ p, answer p ≠ ackFail ++ [10]) :
    ¬Refused args fd line call := by
  intro h
  have hanswer := h.answer
  rw [hs, if_neg (signed_high hhigh _)] at hanswer
  obtain ⟨p, -, hp⟩ := Option.map_eq_some_iff.mp hanswer
  exact hne p (Prod.mk.inj hp).2

end

/-- **An address past the end is refused if and only if it is below `2^31`** (and
a write has data): for every image, every write of any length and every read. A
larger one, such as the `-1` of `balloc`, the server takes for a negative
number, which passes its test. -/
theorem invalid_address_refused_iff (args : Args) (fd : List UInt8) (a : UInt32) (ha : args.blockNum ≤ a.toNat)
    (x : List UInt8) (n : Nat) :
    (Refused args fd (wrLine a x) (diskWr a x) ↔ a.toNat < 2^31 ∧ x ≠ []) ∧
      (Refused args fd (rdLine a) (diskRd a n) ↔ a.toNat < 2^31) := by
  refine ⟨⟨fun h => ?_, fun h => diskWr_refused ha h.1 h.2⟩, fun h => ?_, fun h => diskRd_refused ha h n⟩
  · have hx : x ≠ [] := by
      rintro rfl
      have hanswer := h.answer
      rw [serve_wr_nil] at hanswer
      cases hanswer
    refine ⟨?_, hx⟩
    by_contra hhigh
    exact not_refused_high hhigh _ (serve_wr args fd a hx) (fun _ => by decide) h
  · by_contra hhigh
    refine not_refused_high hhigh _ (serve_rd args fd a) (fun p => ?_) h
    simp [ackLine, ackOkay, ackFail]

/-- Block 2 of a disk of two. -/
theorem invalid_address_refused_two : Refused ⟨2, 512⟩ (List.replicate 1024 0) (wrLine 2 [7]) (diskWr 2 [7]) ∧
    Refused ⟨2, 512⟩ (List.replicate 1024 0) (rdLine 2) (diskRd 2 512) := by
  have h := invalid_address_refused_iff ⟨2, 512⟩ (List.replicate 1024 0) 2 (by decide) [7] 512
  exact ⟨h.1.mpr ⟨by decide, by decide⟩, h.2.mpr (by decide)⟩

/-- Block `-1` of the same disk: the server fails in `fd.seek`, and the kernel
waits for its answer for ever. -/
theorem invalid_address_ends_server : (2 : Nat) ≤ (0xFFFFFFFF : UInt32).toNat ∧
    ¬Refused ⟨2, 512⟩ (List.replicate 1024 0) (wrLine 0xFFFFFFFF [7]) (diskWr 0xFFFFFFFF [7]) ∧
    ∃ f, Settles 10 (serve ⟨2, 512⟩) ⟨diskWr 0xFFFFFFFF [7], [], [], some (List.replicate 1024 0)⟩
      ⟨.get f, [], [], none⟩ := by
  obtain ⟨f, hf⟩ : ∃ f, Settles 10 (serve ⟨2, 512⟩)
      ⟨diskWr 0xFFFFFFFF [7], [], [], some (List.replicate 1024 0)⟩ ⟨.get f, [], [], none⟩ :=
    diskWr_hangs rfl (by decide) (by simp)
  refine ⟨by decide, fun h => ?_, f, hf⟩
  cases h.settles.unique hf

end ArmKernel.Device
