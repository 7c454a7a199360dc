import Chronoid.Base62Decode
import Chronoid.Library.WhileLoop

/-! The division loops of the base62 codec as they stand in the source, with nothing that stops
them but their own guard: the index goes where the passes take it, and a store outside the buffer
is an exit of its own. -/

namespace Chronoid

open Positional (value)

structure DivLoop (w m : ℕ) where
  bp : List (BitVec w)
  n : Int
  out : Vector Byte m

inductive LoopExit (m : ℕ) where
  | outOfBounds
  | returns (err : KsuidErr) (out : Vector Byte m)

variable {w m : ℕ}

/-- The guard `bp_len > 0`. -/
def DivLoop.More (s : DivLoop w m) : Prop := s.bp ≠ []

def storeByte (out : Vector Byte m) (i : Int) (c : Byte) : Except (LoopExit m) (Vector Byte m) :=
  if 0 ≤ i ∧ i < m then .ok (out.setIfInBounds i.toNat c) else .error .outOfBounds

def encodePass (s : DivLoop 32 27) : Except (LoopExit 27) (DivLoop 32 27) :=
  let r := longDiv 4294967296#64 62#64 s.bp
  match kB62Alphabet[r.2.toNat]? with
  | none => .error .outOfBounds
  | some c => (storeByte s.out (s.n - 1) c).map fun out => ⟨r.1, s.n - 1, out⟩

def decodePass (s : DivLoop 8 20) : Except (LoopExit 20) (DivLoop 8 20) :=
  let r := longDiv 62#64 4294967296#64 s.bp
  if s.n < 4 then .error (.returns .errStrValue s.out)
  else do
    let out ← storeByte s.out (s.n - 4) ((r.2 >>> 24).setWidth 8)
    let out ← storeByte out (s.n - 3) ((r.2 >>> 16).setWidth 8)
    let out ← storeByte out (s.n - 2) ((r.2 >>> 8).setWidth 8)
    let out ← storeByte out (s.n - 1) (r.2.setWidth 8)
    .ok ⟨r.1, s.n - 4, out⟩

theorem storeByte_of_lt (out : Vector Byte m) {i : ℕ} (h : i < m) {k : Int} (hk : k = i)
    (c : Byte) : storeByte out k c = .ok (out.set i c h) := by
  rw [hk, storeByte, if_pos ⟨by omega, by omega⟩, Int.toNat_natCast]
  congr 1
  ext j hj
  simp [Vector.getElem_set, Vector.getElem_setIfInBounds]

theorem encodePass_eq {s : DivLoop 32 27} {j : ℕ} (hn : s.n = (j + 1 : ℕ)) (hj : j < 27) :
    encodePass s = .ok ⟨(longDiv 4294967296#64 62#64 s.bp).1, j,
      s.out.set j (base62Char (longDiv 4294967296#64 62#64 s.bp).2.toNat) hj⟩ := by
  have hlt : (longDiv 4294967296#64 62#64 s.bp).2.toNat < 62 :=
    longDiv_remainder_lt (by decide) s.bp
  have hk : s.n - 1 = j := by omega
  simp only [encodePass, kB62Alphabet_getElem? hlt, hk, storeByte_of_lt s.out hj rfl]
  rfl

theorem decodePass_full {s : DivLoop 8 20} (hn : s.n < 4) :
    decodePass s = .error (.returns .errStrValue s.out) := by
  rw [decodePass, if_pos hn]

theorem decodePass_eq {s : DivLoop 8 20} {j : ℕ} (hn : s.n = (j + 4 : ℕ)) (hj : j + 4 ≤ 20) :
    decodePass s = .ok ⟨(longDiv 62#64 4294967296#64 s.bp).1, j,
      storeLimb s.out j hj (longDiv 62#64 4294967296#64 s.bp).2⟩ := by
  have hk : s.n - 4 = j := by omega
  have hfull : ¬s.n < 4 := by omega
  simp only [decodePass, if_neg hfull, hk, storeByte_of_lt _ (show j < 20 by omega) rfl,
    storeByte_of_lt _ (show j + 1 < 20 by omega) (show s.n - 3 = (j + 1 : ℕ) by omega),
    storeByte_of_lt _ (show j + 2 < 20 by omega) (show s.n - 2 = (j + 2 : ℕ) by omega),
    storeByte_of_lt _ (show j + 3 < 20 by omega) (show s.n - 1 = (j + 3 : ℕ) by omega)]
  rfl

/-- Room for `k` passes of the encoder: the number left has at most `k` digits. -/
structure EncodeRoom (k : ℕ) (s : DivLoop 32 27) : Prop where
  n_eq : s.n = k
  le : k ≤ 27
  length_le : s.bp.length ≤ 5
  value_lt : value (2 ^ 32) (s.bp.map BitVec.toNat) < 62 ^ k
  pos : s.More → 0 < k

/-- Room for `k` passes of the decoder, the last of which finds the buffer full. -/
structure DecodeRoom (k : ℕ) (s : DivLoop 8 20) : Prop where
  pos : 0 < k
  n_eq : s.n = (4 * (k - 1) : ℕ)
  le : k ≤ 6
  length_le : s.bp.length ≤ 27
  digits : ∀ x ∈ s.bp, x.toNat < 62
  value_lt : value 62 (s.bp.map BitVec.toNat) < (2 ^ 32) ^ k

theorem EncodeRoom.pass {j : ℕ} {s : DivLoop 32 27} (h : EncodeRoom (j + 1) s) (hj : j < 27) :
    encodePass s = .ok ⟨(longDiv 4294967296#64 62#64 s.bp).1, j,
        s.out.set j (base62Char (longDiv 4294967296#64 62#64 s.bp).2.toNat) hj⟩ ∧
      EncodeRoom j ⟨(longDiv 4294967296#64 62#64 s.bp).1, j,
        s.out.set j (base62Char (longDiv 4294967296#64 62#64 s.bp).2.toNat) hj⟩ := by
  obtain ⟨hvalue, -, -, hnext⟩ := longDiv_encode s.bp
  obtain ⟨hlt, hpos⟩ := hnext j h.value_lt
  refine ⟨encodePass_eq h.n_eq hj, rfl, hj.le, ?_, ?_, hpos⟩
  · exact (longDiv_length_le s.bp).trans h.length_le
  · rwa [hvalue]

theorem encode_counts : WhileLoop.Counts DivLoop.More encodePass EncodeRoom := by
  intro k s h hmore
  obtain ⟨j, rfl⟩ := Nat.exists_eq_succ_of_ne_zero (h.pos hmore).ne'
  obtain ⟨hpass, hroom⟩ := h.pass h.le
  refine ⟨j, rfl, fun t ht => ?_⟩
  obtain rfl := Except.ok.inj (hpass.symm.trans ht)
  exact hroom

theorem DecodeRoom.room {j : ℕ} {s : DivLoop 8 20} (h : DecodeRoom (j + 1) s) : 4 * j ≤ 20 := by
  have hle := h.le
  omega

theorem DecodeRoom.full {s : DivLoop 8 20} (h : DecodeRoom 1 s) :
    decodePass s = .error (.returns .errStrValue s.out) := by
  apply decodePass_full
  rw [h.n_eq]
  decide

theorem DecodeRoom.pass {j : ℕ} {s : DivLoop 8 20} (h : DecodeRoom (j + 2) s)
    (hj : 4 * j + 4 ≤ 20) : decodePass s = .ok ⟨(longDiv 62#64 4294967296#64 s.bp).1, (4 * j : ℕ),
        storeLimb s.out (4 * j) hj (longDiv 62#64 4294967296#64 s.bp).2⟩ ∧
      DecodeRoom (j + 1) ⟨(longDiv 62#64 4294967296#64 s.bp).1, (4 * j : ℕ),
        storeLimb s.out (4 * j) hj (longDiv 62#64 4294967296#64 s.bp).2⟩ := by
  obtain ⟨hvalue, -, hdigits, hnext⟩ := longDiv_decode h.digits
  obtain ⟨hlt, -⟩ := hnext (j + 1) h.value_lt
  refine ⟨decodePass_eq h.n_eq hj, Nat.succ_pos j, rfl, ?_, ?_, hdigits, ?_⟩
  · exact (Nat.le_succ (j + 1)).trans h.le
  · exact (longDiv_length_le s.bp).trans h.length_le
  · rwa [hvalue]

theorem decode_counts : WhileLoop.Counts DivLoop.More decodePass DecodeRoom := by
  intro k s h _
  obtain ⟨j, rfl⟩ := Nat.exists_eq_succ_of_ne_zero h.pos.ne'
  refine ⟨j, rfl, fun t ht => ?_⟩
  cases j with
  | zero =>
    rw [h.full] at ht
    cases ht
  | succ j =>
    obtain ⟨hpass, hroom⟩ := h.pass h.room
    obtain rfl := Except.ok.inj (hpass.symm.trans ht)
    exact hroom

/-- The unbounded loop does what `encodeLoop` says, and never leaves its buffer. -/
theorem encode_runs {s : DivLoop 32 27} {ss : List (DivLoop 32 27)}
    {r : Except (LoopExit 27) (DivLoop 32 27)}
    (hr : WhileLoop.Runs DivLoop.More encodePass s ss r) {k : ℕ} (h : EncodeRoom k s) :
    ∃ t, r = .ok t ∧ 0 ≤ t.n ∧ t.n ≤ 27 ∧
      encodeLoop k h.le s.bp s.out = some (t.n.toNat, t.out) := by
  induction hr generalizing k with
  | @exits s hdone =>
    have hnil : s.bp = [] := Classical.not_not.mp hdone
    have hn := h.n_eq
    have hk := h.le
    refine ⟨s, rfl, by omega, by omega, ?_⟩
    rw [hnil, encodeLoop, hn, Int.toNat_natCast]
  | breaks hmore hpass =>
    obtain ⟨j, rfl⟩ := Nat.exists_eq_succ_of_ne_zero (h.pos hmore).ne'
    rw [(h.pass h.le).1] at hpass
    cases hpass
  | passes hmore hpass _ ih =>
    obtain ⟨j, rfl⟩ := Nat.exists_eq_succ_of_ne_zero (h.pos hmore).ne'
    obtain ⟨hdone, hroom⟩ := h.pass h.le
    obtain rfl := Except.ok.inj (hdone.symm.trans hpass)
    obtain ⟨t, hend, hlow, hhigh, hloop⟩ := ih hroom
    exact ⟨t, hend, hlow, hhigh, (encodeLoop_pass h.le hmore _).trans hloop⟩

/-- How the decoder's loop can end, for what `decodeLoop` returns. -/
inductive DecodeEnd : Except (LoopExit 20) (DivLoop 8 20) → KsuidErr × ℕ × Vector Byte 20 → Prop
  | done (t : DivLoop 8 20) (h : 0 ≤ t.n ∧ t.n ≤ 20) : DecodeEnd (.ok t) (.ok, t.n.toNat, t.out)
  | full (n : ℕ) (out : Vector Byte 20) :
      DecodeEnd (.error (.returns .errStrValue out)) (.errStrValue, n, out)

theorem decode_runs {s : DivLoop 8 20} {ss : List (DivLoop 8 20)}
    {r : Except (LoopExit 20) (DivLoop 8 20)}
    (hr : WhileLoop.Runs DivLoop.More decodePass s ss r) {j : ℕ} (h : DecodeRoom (j + 1) s) :
    DecodeEnd r (decodeLoop (4 * j) h.room s.bp s.out) := by
  induction hr generalizing j with
  | @exits s hdone =>
    have hnil : s.bp = [] := Classical.not_not.mp hdone
    have hn : s.n = (4 * j : ℕ) := h.n_eq
    have hj := h.room
    have hend := DecodeEnd.done s ⟨by omega, by omega⟩
    rwa [hn, Int.toNat_natCast, ← decodeLoop_nil h.room, ← hnil] at hend
  | breaks hmore hpass =>
    cases j with
    | zero =>
      obtain rfl := Except.error.inj (h.full.symm.trans hpass)
      rw [show decodeLoop (4 * 0) _ _ _ = _ from decodeLoop_full hmore _]
      exact .full 0 _
    | succ j =>
      rw [(h.pass h.room).1] at hpass
      cases hpass
  | passes hmore hpass _ ih =>
    cases j with
    | zero =>
      rw [h.full] at hpass
      cases hpass
    | succ j =>
      obtain ⟨hdone, hroom⟩ := h.pass h.room
      obtain rfl := Except.ok.inj (hdone.symm.trans hpass)
      have hend := ih hroom
      rwa [show decodeLoop (4 * (j + 1)) _ _ _ = _ from decodeLoop_pass h.room hmore _]

theorem encode_start (inp : Vector Byte 20) (out : Vector Byte 27) :
    EncodeRoom 27 ⟨payloadLimbs inp, 27, out⟩ :=
  ⟨rfl, Nat.le_refl 27, Nat.le_refl 5, value_payloadLimbs_lt inp, fun _ => Nat.zero_lt_succ 26⟩

theorem decode_start {digits : Vector Byte 27} (h : ∀ x ∈ digits.toList, x.toNat ≤ 61)
    (out : Vector Byte 20) : DecodeRoom 6 ⟨digits.toList, 20, out⟩ := by
  have hdigits : ∀ x ∈ digits.toList, x.toNat < 62 := fun x hx => Nat.lt_succ_of_le (h x hx)
  refine ⟨by decide, rfl, Nat.le_refl 6, by simp, hdigits, ?_⟩
  have hlt :
      value 62 (digits.toList.map BitVec.toNat) < 62 ^ (digits.toList.map BitVec.toNat).length := by
    apply Positional.value_lt (by decide)
    intro d hd
    obtain ⟨x, hx, rfl⟩ := List.mem_map.mp hd
    exact hdigits x hx
  rw [List.length_map, Vector.length_toList] at hlt
  exact hlt.trans (by norm_num)

/-- The encoder's loop ends after 27 passes at most and the decoder's after six, whatever zero limbs
the number has on the way; every step of every pass is sound, no index leaves its array, and the
loops do what their models say. -/
theorem base62_division_loops :
    (∀ (inp : Vector Byte 20) (out : Vector Byte 27),
      (∃ ss r, WhileLoop.Runs DivLoop.More encodePass ⟨payloadLimbs inp, 27, out⟩ ss r) ∧
      ∀ ss r, WhileLoop.Runs DivLoop.More encodePass ⟨payloadLimbs inp, 27, out⟩ ss r →
        ss.length ≤ 27 ∧
        (∀ s ∈ ss, s.bp.length ≤ 5 ∧ 0 ≤ s.n - 1 ∧ s.n - 1 < 27 ∧
          (longDiv 4294967296#64 62#64 s.bp).2.toNat < 62 ∧ PassSound 4294967296#64 62#64 s.bp) ∧
        ∃ t, r = .ok t ∧ 0 ≤ t.n ∧ t.n ≤ 27 ∧
          encodeLoop 27 (Nat.le_refl 27) (payloadLimbs inp) out = some (t.n.toNat, t.out)) ∧
    ∀ (digits : Vector Byte 27) (out : Vector Byte 20), (∀ x ∈ digits.toList, x.toNat ≤ 61) →
      (∃ ss r, WhileLoop.Runs DivLoop.More decodePass ⟨digits.toList, 20, out⟩ ss r) ∧
      ∀ ss r, WhileLoop.Runs DivLoop.More decodePass ⟨digits.toList, 20, out⟩ ss r →
        ss.length ≤ 6 ∧
        (∀ s ∈ ss, s.bp.length ≤ 27 ∧ 0 ≤ s.n ∧ s.n ≤ 20 ∧ PassSound 62#64 4294967296#64 s.bp) ∧
        r ≠ .error .outOfBounds ∧
          DecodeEnd r (decodeLoop 20 (Nat.le_refl 20) digits.toList out) := by
  constructor
  · intro inp out
    have hstart := encode_start inp out
    refine ⟨encode_counts.exists_runs hstart,
      fun ss r hr => ⟨hr.length_le encode_counts hstart, ?_, ?_⟩⟩
    · intro s hs
      obtain ⟨j, hroom⟩ := hr.entered encode_counts hstart s hs
      have hn := hroom.n_eq
      have hj := hroom.le
      refine ⟨hroom.length_le, by omega, by omega, longDiv_encode_lt s.bp, ?_⟩
      exact passSound (by decide) (by decide) (by decide) (by decide) toNat_lt_two_pow
    · exact encode_runs hr hstart
  · intro digits out h
    have hstart := decode_start h out
    refine ⟨decode_counts.exists_runs hstart,
      fun ss r hr => ⟨hr.length_le decode_counts hstart, ?_, ?_⟩⟩
    · intro s hs
      obtain ⟨j, hroom⟩ := hr.entered decode_counts hstart s hs
      have hn := hroom.n_eq
      have hj := hroom.room
      refine ⟨hroom.length_le, by omega, by omega, ?_⟩
      exact passSound (by decide) (by decide) (by decide) (by decide) hroom.digits
    · have hend := decode_runs hr hstart
      refine ⟨?_, hend⟩
      rintro rfl
      cases hend

/-- The greatest digits: the number is above `2 ^ 160`, and the last pass finds no room. -/
theorem base62_division_loops_full :
    ∃ ss r, WhileLoop.Runs DivLoop.More decodePass
        ⟨(Vector.replicate 27 61#8).toList, 20, Vector.replicate 20 0#8⟩ ss r ∧
      ss.length ≤ 6 ∧ r ≠ .error .outOfBounds := by
  obtain ⟨⟨ss, r, hr⟩, hall⟩ :=
    base62_division_loops.2 (Vector.replicate 27 61#8) (Vector.replicate 20 0#8) (by decide)
  exact ⟨ss, r, hr, (hall ss r hr).1, (hall ss r hr).2.2.1⟩

end Chronoid
