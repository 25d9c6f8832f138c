import Mugglec.Crypt.BlockModes

/-!
# Crypt/CipherApi — what a cipher's header promises, whichever cipher it is

`aes.h`, `des.h` and `tdes.h` export the same six calls.  `CipherApi` is such an interface, and a
value of `CipherApi.Loops` is the evidence that its calls are the loops of `BlockModes` over some
block cipher, whose deciphering direction undoes the enciphering one.
-/

namespace Mugglec

open ByteLanes Transducer

variable {w : ℕ}

structure CipherApi (w : ℕ) where
  Key : Type
  Ctx : Type
  Nonce : Type
  blockSize : ℕ
  setKey : ℤ → ℤ → Key → Except Err Ctx
  ecb : Ctx → List Byte → Except Err (List Byte)
  cbc : Ctx → BitVec w → List Byte → Except Err (BitVec w × List Byte)
  cfb : Ctx → FeedbackState w → List Byte → Except Err (FeedbackState w × List Byte)
  ofb : Ctx → FeedbackState w → List Byte → Except Err (FeedbackState w × List Byte)
  ctr : Ctx → CtrState Nonce w → List Byte → Except Err (CtrState Nonce w × List Byte)

namespace CipherApi

structure Keyed (A : CipherApi w) (mode : CipherMode) (key : A.Key) (e d : A.Ctx) : Prop where
  encrypt : A.setKey CryptOp.encrypt.code mode.code key = .ok e
  decrypt : A.setKey CryptOp.decrypt.code mode.code key = .ok d

structure RoundTrips (A : CipherApi w) : Prop where
  accepted : ∀ (mode : CipherMode) key e, A.setKey CryptOp.encrypt.code mode.code key = .ok e →
    ∃ d, A.setKey CryptOp.decrypt.code mode.code key = .ok d
  ecb : ∀ key e d, A.Keyed .ecb key e d → ∀ m : List Byte,
    A.blockSize ∣ m.length → m.length < 2 ^ 32 →
      ∃ c, A.ecb e m = .ok c ∧ A.ecb d c = .ok m
  cbc : ∀ key e d, A.Keyed .cbc key e d → ∀ iv (m : List Byte),
    A.blockSize ∣ m.length → m.length < 2 ^ 32 →
      ∃ iv' c, A.cbc e iv m = .ok (iv', c) ∧ A.cbc d iv c = .ok (iv', m)
  cfb : ∀ key e d, A.Keyed .cfb key e d → ∀ s (m : List Byte), s.offset < A.blockSize →
    ∃ s' c, A.cfb e s m = .ok (s', c) ∧ A.cfb d s c = .ok (s', m)
  ofb : ∀ key e d, A.Keyed .ofb key e d → ∀ s (m : List Byte), s.offset < A.blockSize →
    ∃ s' c, A.ofb e s m = .ok (s', c) ∧ A.ofb d s c = .ok (s', m)
  ctr : ∀ key e d, A.Keyed .ctr key e d → ∀ s (m : List Byte), s.offset < A.blockSize →
    ∃ s' c, A.ctr e s m = .ok (s', c) ∧ A.ctr d s c = .ok (s', m)

def successive {σ : Type} (call : σ → List Byte → Except Err (σ × List Byte)) :
    σ → List (List Byte) → Except Err (σ × List Byte)
  | s, [] => .ok (s, [])
  | s, chunk :: chunks => do
    let r ← call s chunk
    let t ← successive call r.1 chunks
    .ok (t.1, r.2 ++ t.2)

structure Chunked (A : CipherApi w) : Prop where
  cbc : ∀ op key ctx, A.setKey op CipherMode.cbc.code key = .ok ctx →
    ∀ iv (chunks : List (List Byte)), (∀ c ∈ chunks, A.blockSize ∣ c.length) →
      chunks.flatten.length < 2 ^ 32 →
        ∃ r, A.cbc ctx iv chunks.flatten = .ok r ∧ successive (A.cbc ctx) iv chunks = .ok r
  cfb : ∀ op key ctx, A.setKey op CipherMode.cfb.code key = .ok ctx →
    ∀ s (chunks : List (List Byte)), s.offset < A.blockSize →
      ∃ r, A.cfb ctx s chunks.flatten = .ok r ∧ successive (A.cfb ctx) s chunks = .ok r
  ofb : ∀ op key ctx, A.setKey op CipherMode.ofb.code key = .ok ctx →
    ∀ s (chunks : List (List Byte)), s.offset < A.blockSize →
      ∃ r, A.ofb ctx s chunks.flatten = .ok r ∧ successive (A.ofb ctx) s chunks = .ok r
  ctr : ∀ op key ctx, A.setKey op CipherMode.ctr.code key = .ok ctx →
    ∀ s (chunks : List (List Byte)), s.offset < A.blockSize →
      ∃ r, A.ctr ctx s chunks.flatten = .ok r ∧ successive (A.ctr ctx) s chunks = .ok r

def ctrSeries (A : CipherApi w) :
    CtrState A.Nonce w → List (A.Ctx × BitVec w × List Byte) → Except Err (CtrState A.Nonce w)
  | s, [] => .ok s
  | s, (ctx, streamBlock, input) :: calls => do
    let r ← A.ctr ctx { s with streamBlock := streamBlock } input
    A.ctrSeries r.1 calls

def CountersDistinct (A : CipherApi w) : Prop :=
  ∀ (s : CtrState A.Nonce w) (calls : List (A.Ctx × BitVec w × List Byte)),
    s.offset < A.blockSize → s.counters = [] →
    (∀ call ∈ calls, ∃ op key, A.setKey op CipherMode.ctr.code key = .ok call.1) →
    ∃ s', A.ctrSeries s calls = .ok s' ∧ (s'.counters.length < 2 ^ w → s'.counters.Nodup)

structure Loops (A : CipherApi w) where
  op : A.Ctx → CryptOp
  mode : A.Ctx → CipherMode
  crypt : A.Ctx → BitVec w → BitVec w
  keystream : A.Ctx → BitVec w → BitVec w
  advance : A.Nonce → A.Nonce
  counterBlock : A.Nonce → BitVec w
  blockSize_pos : 0 < A.blockSize
  width : w = 8 * A.blockSize
  counterBlock_advance : ∀ x, counterBlock (advance x) = counterBlock x + 1
  op_of_setKey : ∀ {o m key ctx}, A.setKey o m key = .ok ctx → CryptOp.ofInt o = some (op ctx)
  mode_of_setKey : ∀ {o m key ctx}, A.setKey o m key = .ok ctx →
    CipherMode.ofInt m = some (mode ctx)
  accepted : ∀ (mode : CipherMode) key e, A.setKey CryptOp.encrypt.code mode.code key = .ok e →
    ∃ d, A.setKey CryptOp.decrypt.code mode.code key = .ok d
  crypt_crypt : ∀ {m : CipherMode} {key e d}, m = .ecb ∨ m = .cbc → A.Keyed m key e d →
    ∀ x, crypt d (crypt e x) = x
  keystream_eq : ∀ {m : CipherMode} {key e d}, m = .cfb ∨ m = .ofb ∨ m = .ctr → A.Keyed m key e d →
    keystream d = keystream e
  ecb_eq : ∀ {ctx} {m : List Byte}, mode ctx = .ecb → A.blockSize ∣ m.length → m.length < 2 ^ 32 →
    A.ecb ctx m = .ok (ecbLoop A.blockSize (crypt ctx) m)
  cbc_eq : ∀ {ctx} iv {m : List Byte}, mode ctx = .cbc → A.blockSize ∣ m.length →
    m.length < 2 ^ 32 → A.cbc ctx iv m = .ok (cbcLoop A.blockSize (op ctx) (crypt ctx) iv m)
  cfb_eq : ∀ {ctx s m}, mode ctx = .cfb → s.offset < A.blockSize →
    A.cfb ctx s m = .ok (run (cfbStep A.blockSize (op ctx) (keystream ctx)) s m)
  ofb_eq : ∀ {ctx s m}, mode ctx = .ofb → s.offset < A.blockSize →
    A.ofb ctx s m = .ok (run (ofbStep A.blockSize (keystream ctx)) s m)
  ctr_eq : ∀ {ctx s m}, mode ctx = .ctr → s.offset < A.blockSize →
    A.ctr ctx s m = .ok (run (ctrStep A.blockSize (keystream ctx) advance counterBlock) s m)

theorem successive_eq_run {σ : Type} {call : σ → List Byte → Except Err (σ × List Byte)}
    {step : σ → Byte → σ × Byte} {I : σ → Prop} (hcall : ∀ s m, I s → call s m = .ok (run step s m))
    (hstep : ∀ s b, I s → I (step s b).1) {s : σ} (hs : I s) (chunks : List (List Byte)) :
    successive call s chunks = .ok (run step s chunks.flatten) := by
  induction chunks generalizing s with
  | nil => rfl
  | cons c chunks ih =>
    rw [successive, hcall s c hs]
    simp only [bind, Except.bind]
    rw [ih (run_invariant hstep hs c), List.flatten_cons, run_append]

theorem dvd_length_flatten {n : ℕ} {chunks : List (List Byte)} (h : ∀ c ∈ chunks, n ∣ c.length) :
    n ∣ chunks.flatten.length := by
  rw [List.length_flatten]
  refine List.dvd_sum fun l hl => ?_
  obtain ⟨c, hc, rfl⟩ := List.mem_map.mp hl
  exact h c hc

namespace Loops

variable {A : CipherApi w} (h : A.Loops)

include h in
theorem mode_eq {o : ℤ} {m : CipherMode} {key : A.Key} {ctx : A.Ctx}
    (hk : A.setKey o m.code key = .ok ctx) : h.mode ctx = m := by
  simpa [eq_comm] using h.mode_of_setKey hk

include h in
theorem op_eq {o : CryptOp} {m : ℤ} {key : A.Key} {ctx : A.Ctx}
    (hk : A.setKey o.code m key = .ok ctx) : h.op ctx = o := by
  simpa [eq_comm] using h.op_of_setKey hk

include h in
theorem roundTrips : A.RoundTrips where
  accepted := h.accepted
  ecb key e d hk m hdvd hlt := by
    obtain ⟨hlen, hback⟩ := ecbLoop_ecbLoop h.blockSize_pos h.width
      (h.crypt_crypt (.inl rfl) hk) hdvd
    refine ⟨_, h.ecb_eq (h.mode_eq hk.encrypt) hdvd hlt, ?_⟩
    rw [h.ecb_eq (h.mode_eq hk.decrypt) (by rwa [hlen]) (by rwa [hlen]), hback]
  cbc key e d hk iv m hdvd hlt := by
    obtain ⟨hlen, hback⟩ := cbcLoop_cbcLoop h.blockSize_pos h.width
      (h.crypt_crypt (.inr rfl) hk) iv hdvd
    have hthere := h.cbc_eq iv (h.mode_eq hk.encrypt) hdvd hlt
    rw [h.op_eq hk.encrypt] at hthere
    generalize cbcLoop A.blockSize .encrypt (h.crypt e) iv m = r at hlen hback hthere
    refine ⟨r.1, r.2, hthere, ?_⟩
    rw [h.cbc_eq iv (h.mode_eq hk.decrypt) (by rwa [hlen]) (by rwa [hlen]), h.op_eq hk.decrypt,
      hback]
  cfb key e d hk s m hs := by
    have hthere := h.cfb_eq (m := m) (h.mode_eq hk.encrypt) hs
    rw [h.op_eq hk.encrypt] at hthere
    refine ⟨_, _, hthere, ?_⟩
    rw [h.cfb_eq (h.mode_eq hk.decrypt) hs, h.op_eq hk.decrypt, h.keystream_eq (.inl rfl) hk,
      run_run_of_undo (cfbStep_undo _ _)]
  ofb key e d hk s m hs := by
    refine ⟨_, _, h.ofb_eq (h.mode_eq hk.encrypt) hs, ?_⟩
    rw [h.ofb_eq (h.mode_eq hk.decrypt) hs, h.keystream_eq (.inr (.inl rfl)) hk,
      run_run_of_undo (ofbStep_undo _ _)]
  ctr key e d hk s m hs := by
    refine ⟨_, _, h.ctr_eq (h.mode_eq hk.encrypt) hs, ?_⟩
    rw [h.ctr_eq (h.mode_eq hk.decrypt) hs, h.keystream_eq (.inr (.inr rfl)) hk,
      run_run_of_undo (ctrStep_undo _ _ _ _)]

include h in
theorem successive_cbc {ctx : A.Ctx} (hm : h.mode ctx = .cbc) (iv : BitVec w)
    (chunks : List (List Byte)) (hdvd : ∀ c ∈ chunks, A.blockSize ∣ c.length)
    (hlt : chunks.flatten.length < 2 ^ 32) :
    successive (A.cbc ctx) iv chunks =
      .ok (cbcLoop A.blockSize (h.op ctx) (h.crypt ctx) iv chunks.flatten) := by
  induction chunks generalizing iv with
  | nil => simp [successive, cbcLoop, inputBlocks, outputBytes]
  | cons c chunks ih =>
    have hc := hdvd c List.mem_cons_self
    have hrest : ∀ c ∈ chunks, A.blockSize ∣ c.length := fun c' h' =>
      hdvd c' (List.mem_cons_of_mem c h')
    rw [List.flatten_cons, List.length_append] at hlt
    rw [successive, h.cbc_eq iv hm hc (by omega)]
    simp only [bind, Except.bind]
    rw [ih _ hrest (by omega), List.flatten_cons,
      cbcLoop_append h.blockSize_pos _ _ _ hc (dvd_length_flatten hrest)]

include h in
theorem chunked : A.Chunked where
  cbc op key ctx hk iv chunks hdvd hlt := by
    exact ⟨_, h.cbc_eq iv (h.mode_eq hk) (dvd_length_flatten hdvd) hlt,
      h.successive_cbc (h.mode_eq hk) iv chunks hdvd hlt⟩
  cfb op key ctx hk s chunks hs := by
    refine ⟨_, h.cfb_eq (h.mode_eq hk) hs, ?_⟩
    exact successive_eq_run (fun _ _ => h.cfb_eq (h.mode_eq hk))
      (fun _ _ _ => nextOffset_lt h.blockSize_pos _) hs chunks
  ofb op key ctx hk s chunks hs := by
    refine ⟨_, h.ofb_eq (h.mode_eq hk) hs, ?_⟩
    exact successive_eq_run (fun _ _ => h.ofb_eq (h.mode_eq hk))
      (fun _ _ _ => nextOffset_lt h.blockSize_pos _) hs chunks
  ctr op key ctx hk s chunks hs := by
    refine ⟨_, h.ctr_eq (h.mode_eq hk) hs, ?_⟩
    exact successive_eq_run (fun _ _ => h.ctr_eq (h.mode_eq hk))
      (fun _ _ _ => nextOffset_lt h.blockSize_pos _) hs chunks

include h in
theorem counted_ctrSeries {start : BitVec w} {s : CtrState A.Nonce w}
    {calls : List (A.Ctx × BitVec w × List Byte)} (hs : s.offset < A.blockSize)
    (hc : Counted h.counterBlock start s)
    (hcalls : ∀ call ∈ calls, ∃ op key, A.setKey op CipherMode.ctr.code key = .ok call.1) :
    ∃ s', A.ctrSeries s calls = .ok s' ∧ Counted h.counterBlock start s' := by
  induction calls generalizing s with
  | nil => exact ⟨s, rfl, hc⟩
  | cons call calls ih =>
    obtain ⟨ctx, streamBlock, input⟩ := call
    obtain ⟨op, key, hk⟩ := hcalls _ List.mem_cons_self
    have hcall := h.ctr_eq (s := { s with streamBlock := streamBlock }) (m := input)
      (h.mode_eq hk) hs
    have hstep : ∀ t b, t.offset < A.blockSize ∧ Counted h.counterBlock start t →
        (ctrStep A.blockSize (h.keystream ctx) h.advance h.counterBlock t b).1.offset <
            A.blockSize ∧
          Counted h.counterBlock start
            (ctrStep A.blockSize (h.keystream ctx) h.advance h.counterBlock t b).1 :=
      fun t b ht => ⟨nextOffset_lt h.blockSize_pos _, ht.2.step h.counterBlock_advance b⟩
    have hkept := run_invariant hstep (s := { s with streamBlock := streamBlock }) ⟨hs, hc⟩ input
    obtain ⟨s', hs', hc'⟩ := ih hkept.1 hkept.2 fun c hc => hcalls c (List.mem_cons_of_mem _ hc)
    refine ⟨s', ?_, hc'⟩
    rw [ctrSeries, hcall]
    exact hs'

include h in
theorem countersDistinct : A.CountersDistinct := by
  intro s calls hs hlog hcalls
  have hc : Counted h.counterBlock (h.counterBlock s.nonce) s := ⟨0, by simp, by simp [hlog]⟩
  obtain ⟨s', hs', hc'⟩ := h.counted_ctrSeries hs hc hcalls
  exact ⟨s', hs', hc'.nodup⟩

end Loops

end CipherApi

end Mugglec
