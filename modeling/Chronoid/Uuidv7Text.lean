import Chronoid.HexDecode
import Chronoid.TextOrder

/-! Parsing of UUIDv7 texts: it accepts the canonical grammar in either letter case,
and up to case it is inverse to formatting. -/

namespace Chronoid

/-- `inner` and `tmp` are what the stack held where the temporaries of the decoder and of
the parser go. -/
def uuidv7Parse (inner tmp : Vector Byte 16) (out : Uuidv7) (s : ℕ → Byte) (len : ℕ) :
    Uuidv7Err × Uuidv7 :=
  if len ≠ 36 then (.errStrSize, out)
  else
    let r := hexDecode inner tmp s len
    if r.1 ≠ 0 then (.errStrValue, out) else (.ok, ⟨r.2⟩)

/-- The canonical grammar: hyphens at their four places and hexadecimal digits elsewhere. -/
def Uuidv7Grammar (text : Vector Byte 36) : Prop :=
  ∀ p : Fin 36, if p.val = 8 ∨ p.val = 13 ∨ p.val = 18 ∨ p.val = 23 then text.get p = hyphen
    else (hexDigit (text.get p)).isSome

instance (text : Vector Byte 36) : Decidable (Uuidv7Grammar text) :=
  Nat.decidableForallFin _

def lowerHex (c : Byte) : Byte := if 0x41 ≤ c.toNat ∧ c.toNat ≤ 0x46 then c + 0x20#8 else c

theorem hexLower_of_hexDigit {c : Byte} {d : ℕ} (h : hexDigit c = some d) :
    hexLower d = lowerHex c := by
  have hh : ∀ c : Byte, (hexDigit c).elim (lowerHex c) hexLower = lowerHex c := by decide
  simpa [h] using hh c

theorem hexDigit_hexLower : ∀ d < 16, hexDigit (hexLower d) = some d := by
  decide

theorem lowerHex_hyphen : lowerHex hyphen = hyphen := by
  decide

theorem hexLower_injective {d e : ℕ} (hd : d < 16) (he : e < 16) (h : hexLower d = hexLower e) :
    d = e := by
  have hh := hexDigit_hexLower d hd
  rw [h, hexDigit_hexLower e he] at hh
  exact (Option.some_inj.mp hh).symm

theorem HexLayout.bytes_unique {a b : Vector Byte 16} {text : Vector Byte 36}
    (ha : HexLayout a text) (hb : HexLayout b text) : a = b := by
  ext1 i hi
  have hlta := a[i].isLt
  have hltb := b[i].isLt
  have hhigh :=
    hexLower_injective (by omega) (by omega) ((ha.high ⟨i, hi⟩).symm.trans (hb.high ⟨i, hi⟩))
  have hlow := hexLower_injective (Nat.mod_lt _ (by decide)) (Nat.mod_lt _ (by decide))
    ((ha.low ⟨i, hi⟩).symm.trans (hb.low ⟨i, hi⟩))
  simp only [Fin.getElem_fin] at hhigh hlow
  apply BitVec.eq_of_toNat_eq
  omega

theorem HexLayout.id_unique {a b : Uuidv7} {text : Vector Byte 36} (ha : HexLayout a.b text)
    (hb : HexLayout b.b text) : a = b := by
  cases a
  cases b
  exact congrArg _ (ha.bytes_unique hb)

theorem grammar_iff (s : ℕ → Byte) : Uuidv7Grammar (readBuffer 36 s) ↔
    (s 8 = hyphen ∧ s 13 = hyphen ∧ s 18 = hyphen ∧ s 23 = hyphen) ∧ ∀ i, PairValid s i := by
  have hget (p : Fin 36) : (readBuffer 36 s).get p = s p := Vector.getElem_ofFn p.isLt
  simp only [Uuidv7Grammar, hget]
  constructor
  · intro h
    refine ⟨⟨h 8, h 13, h 18, h 23⟩, fun i => ?_⟩
    have hdigit (q : Fin 36) (hq : ∀ p ∈ [8, 13, 18, 23], q.val ≠ p) : (hexDigit (s q)).isSome := by
      have hh := h q
      rwa [if_neg] at hh
      simpa using hq
    exact ⟨hdigit ⟨kCharOff[i].val, by omega⟩ fun p hp => (layout_hyphens i p hp).1,
      hdigit ⟨kCharOff[i].val + 1, by omega⟩ fun p hp => (layout_hyphens i p hp).2⟩
  · rintro ⟨⟨h8, h13, h18, h23⟩, hpairs⟩ p
    rcases layout_cover p p.isLt with hp | ⟨i, hp⟩
    · rw [if_pos hp]
      rcases hp with hp | hp | hp | hp <;> rw [hp] <;> assumption
    · have hne : ∀ q ∈ [8, 13, 18, 23], p.val ≠ q := by
        intro q hq
        have hh := layout_hyphens i q hq
        omega
      rw [if_neg (by simpa using hne)]
      rcases hp with hp | hp <;> rw [hp]
      · exact (hpairs i).1
      · exact (hpairs i).2

theorem hexDecode_spec (tmp out : Vector Byte 16) (s : ℕ → Byte) :
    (Uuidv7Grammar (readBuffer 36 s) ∧ ∃ bytes, hexDecode tmp out s 36 = (0, bytes) ∧
      HexLayout bytes ((readBuffer 36 s).map lowerHex)) ∨
    (¬Uuidv7Grammar (readBuffer 36 s) ∧ hexDecode tmp out s 36 = (-1, out)) := by
  rw [grammar_iff]
  by_cases hhyphens : s 8 = hyphen ∧ s 13 = hyphen ∧ s 18 = hyphen ∧ s 23 = hyphen
  · have hmask := foldl_hexDecodePass_mask s (List.finRange 16) (tmp, 0#32)
    by_cases hpairs : ∀ i, PairValid s i
    · left
      refine ⟨⟨hhyphens, hpairs⟩,
        ((List.finRange 16).foldl (hexDecodePass s) (tmp, 0#32)).1, ?_, ?_⟩
      · obtain ⟨h8, h13, h18, h23⟩ := hhyphens
        have hclean := hmask.mpr ⟨BitVec.zero_and, fun i _ => hpairs i⟩
        simp [hexDecode, h8, h13, h18, h23, hclean]
      · have hbyte (i : Fin 16) : ∃ d d', d < 16 ∧ d' < 16 ∧
            (((List.finRange 16).foldl (hexDecodePass s) (tmp, 0#32)).1[i]).toNat = d * 16 + d' ∧
            hexLower d = lowerHex (s kCharOff[i]) ∧
                hexLower d' = lowerHex (s (kCharOff[i].val + 1)) := by
          obtain ⟨d, hd⟩ := Option.isSome_iff_exists.mp (hpairs i).1
          obtain ⟨d', hd'⟩ := Option.isSome_iff_exists.mp (hpairs i).2
          exact ⟨d, d', hexDigit_lt hd, hexDigit_lt hd',
            foldl_hexDecodePass s _ (List.nodup_finRange 16) (List.mem_finRange i) hd hd',
            hexLower_of_hexDigit hd, hexLower_of_hexDigit hd'⟩
        constructor
        · intro i
          obtain ⟨d, d', _, _, hbyte, hhigh, _⟩ := hbyte i
          rw [hbyte, show (d * 16 + d') / 16 = d by omega, hhigh]
          simp [readBuffer]
        · intro i
          obtain ⟨d, d', _, _, hbyte, _, hlow⟩ := hbyte i
          rw [hbyte, show (d * 16 + d') % 16 = d' by omega, hlow]
          simp [readBuffer]
        · obtain ⟨h8, h13, h18, h23⟩ := hhyphens
          simp [readBuffer, h8, h13, h18, h23, lowerHex_hyphen]
    · right
      refine ⟨fun hh => hpairs hh.2, ?_⟩
      have hdirty : ((List.finRange 16).foldl (hexDecodePass s) (tmp, 0#32)).2 &&& 0xF0#32 ≠ 0#32 :=
        fun hh => hpairs fun i => (hmask.mp hh).2 i (List.mem_finRange i)
      simp only [hexDecode, if_pos hdirty, ite_self]
  · right
    refine ⟨fun hh => hhyphens hh.1, ?_⟩
    rw [hexDecode, if_neg (by decide), if_pos (by tauto)]

theorem HexLayout.canonical {inp : Vector Byte 16} {text : Vector Byte 36}
    (h : HexLayout inp text) : Uuidv7Grammar text ∧ text.map lowerHex = text := by
  obtain ⟨h8, h13, h18, h23⟩ := h.hyphens
  have hchar (p : ℕ) (hp : p < 36) : text[p] = hyphen ∧ (p = 8 ∨ p = 13 ∨ p = 18 ∨ p = 23) ∨
      ∃ d < 16, text[p] = hexLower d ∧ ¬(p = 8 ∨ p = 13 ∨ p = 18 ∨ p = 23) := by
    rcases layout_cover p hp with hq | ⟨i, hi⟩
    · left
      rcases hq with rfl | rfl | rfl | rfl <;> simp only [h8, h13, h18, h23] <;> simp
    · right
      have hne : ¬(p = 8 ∨ p = 13 ∨ p = 18 ∨ p = 23) := by
        have hh := fun q hq => layout_hyphens i q hq
        simp only [List.forall_mem_cons] at hh
        omega
      have hlt := inp[i].isLt
      rcases hi with rfl | rfl
      · exact ⟨inp[i].toNat / 16, by omega, h.high i, hne⟩
      · exact ⟨inp[i].toNat % 16, by omega, h.low i, hne⟩
  constructor
  · intro p
    rcases hchar p p.isLt with ⟨hc, hp⟩ | ⟨d, hd, hc, hp⟩
    · rw [if_pos hp]
      exact hc
    · rw [if_neg hp, show text.get p = hexLower d from hc, hexDigit_hexLower d hd]
      rfl
  · ext1 p hp
    rw [Vector.getElem_map]
    rcases hchar p hp with ⟨hc, _⟩ | ⟨d, hd, hc, _⟩
    · rw [hc, lowerHex_hyphen]
    · rw [hc, ← hexLower_of_hexDigit (hexDigit_hexLower d hd)]

theorem uuidv7Parse_spec (inner tmp : Vector Byte 16) (out : Uuidv7) (s : ℕ → Byte) :
    (Uuidv7Grammar (readBuffer 36 s) ∧ ∃ id : Uuidv7, uuidv7Parse inner tmp out s 36 = (.ok, id) ∧
      HexLayout id.b ((readBuffer 36 s).map lowerHex)) ∨
    (¬Uuidv7Grammar (readBuffer 36 s) ∧ uuidv7Parse inner tmp out s 36 = (.errStrValue, out)) := by
  rcases hexDecode_spec inner tmp s with ⟨hg, bytes, hdec, hlayout⟩ | ⟨hbad, hdec⟩
  · exact .inl ⟨hg, ⟨bytes⟩, by simp [uuidv7Parse, hdec], hlayout⟩
  · exact .inr ⟨hbad, by simp [uuidv7Parse, hdec]⟩

theorem uuidv7Parse_layout {inner tmp : Vector Byte 16} {out id : Uuidv7} {s : ℕ → Byte}
    (h : uuidv7Parse inner tmp out s 36 = (.ok, id)) :
    HexLayout id.b ((readBuffer 36 s).map lowerHex) := by
  rcases uuidv7Parse_spec inner tmp out s with ⟨_, id', hparse, hlayout⟩ | ⟨_, hparse⟩
  · rw [hparse] at h
    cases h
    exact hlayout
  · rw [hparse] at h
    cases h

/-- Parsing accepts exactly the canonical grammar, whatever the case of its digits, and
leaves the destination alone otherwise. It reads back what formatting wrote, formatting
writes back what was read in small letters, and so only case is lost. -/
theorem uuidv7_text_round_trip (inner tmp : Vector Byte 16) (out : Uuidv7) :
    (∀ (s : ℕ → Byte) (len : ℕ),
      let r := uuidv7Parse inner tmp out s len
      (r.1 = .errStrSize ↔ len ≠ 36) ∧
      (r.1 = .ok ↔ len = 36 ∧ Uuidv7Grammar (readBuffer 36 s)) ∧
      (r.1 = .errStrValue ↔ len = 36 ∧ ¬Uuidv7Grammar (readBuffer 36 s)) ∧
      (r.1 ≠ .ok → r.2 = out)) ∧
    (∀ (ssse3 : Bool) (id : Uuidv7) (buf : Vector Byte 36) (s : ℕ → Byte),
      readBuffer 36 s = uuidv7Format ssse3 id buf → uuidv7Parse inner tmp out s 36 = (.ok, id)) ∧
    (∀ s id, uuidv7Parse inner tmp out s 36 = (.ok, id) → ∀ ssse3 buf,
      uuidv7Format ssse3 id buf = (readBuffer 36 s).map lowerHex) ∧
    ∀ s t id id', uuidv7Parse inner tmp out s 36 = (.ok, id) →
      uuidv7Parse inner tmp out t 36 = (.ok, id') →
      (id = id' ↔ (readBuffer 36 s).map lowerHex = (readBuffer 36 t).map lowerHex) := by
  refine ⟨fun s len => ?_, ?_, ?_, ?_⟩
  · intro r
    by_cases hlen : len = 36
    · subst hlen
      rcases uuidv7Parse_spec inner tmp out s with ⟨hg, id, hparse, _⟩ | ⟨hbad, hparse⟩
      · have hr : r = (.ok, id) := hparse
        simp [hr, hg]
      · have hr : r = (.errStrValue, out) := hparse
        simp [hr, hbad]
    · have hr : r = (.errStrSize, out) := if_pos hlen
      simp [hr, hlen]
  · intro ssse3 id buf s hs
    have hlayout : HexLayout id.b (readBuffer 36 s) := hs ▸ hexEncodeLower_layout ssse3 buf id.b
    obtain ⟨hg, hlower⟩ := hlayout.canonical
    rcases uuidv7Parse_spec inner tmp out s with ⟨_, id', hparse, hread⟩ | ⟨hbad, _⟩
    · rw [hlower] at hread
      rw [hparse, hread.id_unique hlayout]
    · exact absurd hg hbad
  · intro s id hparse ssse3 buf
    exact (hexEncodeLower_layout ssse3 buf id.b).unique (uuidv7Parse_layout hparse)
  · intro s t id id' hs ht
    have hlayout := uuidv7Parse_layout hs
    have hlayout' := uuidv7Parse_layout ht
    constructor
    · rintro rfl
      exact hlayout.unique hlayout'
    · intro he
      rw [he] at hlayout
      exact hlayout.id_unique hlayout'

theorem uuidv7_text_round_trip_capitals :
    let s : ℕ → Byte := fun i =>
      (['0', '1', '8', 'F', 'E', '8', 'a', '2', '-', '0', '0', 'b', 'C', '-',
      '7', '0', '0', '0', '-', '8', '0', '0', '0', '-', '0', '0', '0', '0', '0', '0',
      'A', 'b', 'C', 'd', 'E', 'f'].map charByte).getD i 0#8
    let id : Uuidv7 :=
      ⟨#v[0x01#8, 0x8F#8, 0xE8#8, 0xA2#8, 0x00#8, 0xBC#8, 0x70#8, 0x00#8, 0x80#8, 0x00#8,
        0x00#8, 0x00#8, 0x00#8, 0xAB#8, 0xCD#8, 0xEF#8]⟩
    uuidv7Format true id (Vector.replicate 36 0#8) = (readBuffer 36 s).map lowerHex := by
  intro s id
  have hparse : uuidv7Parse (Vector.replicate 16 1#8) (Vector.replicate 16 2#8)
      ⟨Vector.replicate 16 3#8⟩ s 36 = (.ok, id) := by
    decide +kernel
  exact (uuidv7_text_round_trip _ _ _).2.2.1 s id hparse true _

end Chronoid
