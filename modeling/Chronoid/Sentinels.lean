import Chronoid.KsuidSequence
import Chronoid.Uuidv7SequenceRuns
import Chronoid.WallClock

/-! The constants nil and max: they are the ends of the order and of the texts, and no UUIDv7 that
the library makes is one of them. -/

namespace Chronoid

def ksuidNil : Ksuid := ⟨Vector.replicate 20 0x00#8⟩
def ksuidMax : Ksuid := ⟨Vector.replicate 20 0xff#8⟩
def uuidv7Nil : Uuidv7 := ⟨Vector.replicate 16 0x00#8⟩
def uuidv7Max : Uuidv7 := ⟨Vector.replicate 16 0xff#8⟩

def ksuidIsNil (id : Ksuid) : Bool :=
  let zero : Vector Byte 20 := Vector.replicate 20 0#8
  memcmp id.bytes zero.toList = .eq

def uuidv7IsNil (id : Uuidv7) : Bool :=
  let zero : Vector Byte 16 := Vector.replicate 16 0#8
  memcmp id.bytes zero.toList = .eq

def IdFormat.nil : IdFormat → GenId
  | .ksuid => .ksuid ksuidNil
  | .uuidv7 => .uuidv7 uuidv7Nil

def IdFormat.max : IdFormat → GenId
  | .ksuid => .ksuid ksuidMax
  | .uuidv7 => .uuidv7 uuidv7Max

def Uuidv7.NoSentinel (id : Uuidv7) : Prop := uuidv7IsNil id = false ∧ id ≠ uuidv7Max

theorem IdFormat.nil_idformat (f : IdFormat) : f.nil.idformat = f := by cases f <;> rfl

theorem IdFormat.max_idformat (f : IdFormat) : f.max.idformat = f := by cases f <;> rfl

theorem bytesValue_zeros (n : ℕ) : bytesValue (List.replicate n 0x00#8) = 0 := by
  induction n with
  | zero => rfl
  | succ n ih =>
    rw [List.replicate_succ, bytesValue_cons, ih, BitVec.toNat_ofNat, Nat.zero_mod, Nat.zero_mul]

theorem bytesValue_ones (n : ℕ) : bytesValue (List.replicate n 0xff#8) + 1 = 256 ^ n := by
  induction n with
  | zero => rfl
  | succ n ih =>
    rw [List.replicate_succ, bytesValue_cons, List.length_replicate, Nat.add_assoc, ih, pow_succ]
    exact show 255 * 256 ^ n + 256 ^ n = _ by ring

theorem memcmp_eq_iff {xs ys : List Byte} (hlen : xs.length = ys.length) :
    memcmp xs ys = .eq ↔ xs = ys := by
  rw [memcmp_eq_compare hlen, Nat.compare_eq_eq]
  exact ⟨bytesValue_inj hlen, congrArg _⟩

section Ends

variable {α : Type*} {bytes : α → List Byte} {n : ℕ}

/-- Of what has bytes of one length, the one with zeros is the first. -/
theorem zeros_iff_first (hinj : Function.Injective bytes) (hlen : ∀ a, (bytes a).length = n)
    {zero : α} (hzero : bytes zero = List.replicate n 0x00#8) (a : α) :
    a = zero ↔ ∀ other, memcmp (bytes a) (bytes other) ≠ .gt := by
  have hcompare (x y : α) :
      memcmp (bytes x) (bytes y) ≠ .gt ↔ bytesValue (bytes x) ≤ bytesValue (bytes y) := by
    rw [memcmp_eq_compare (by rw [hlen, hlen]), Nat.compare_ne_gt]
  have hvalue : bytesValue (bytes zero) = 0 := by rw [hzero, bytesValue_zeros]
  constructor
  · rintro rfl other
    rw [hcompare, hvalue]
    exact Nat.zero_le _
  · intro h
    have hle := (hcompare a zero).mp (h zero)
    rw [hvalue, Nat.le_zero] at hle
    exact hinj (bytesValue_inj (by rw [hlen, hlen]) (hle.trans hvalue.symm))

theorem ones_iff_last (hinj : Function.Injective bytes) (hlen : ∀ a, (bytes a).length = n)
    {ones : α} (hones : bytes ones = List.replicate n 0xff#8) (a : α) :
    a = ones ↔ ∀ other, memcmp (bytes a) (bytes other) ≠ .lt := by
  have hcompare (x y : α) :
      memcmp (bytes x) (bytes y) ≠ .lt ↔ bytesValue (bytes y) ≤ bytesValue (bytes x) := by
    rw [memcmp_eq_compare (by rw [hlen, hlen]), Nat.compare_ne_lt]
  have hvalue : bytesValue (bytes ones) + 1 = 256 ^ n := by rw [hones, bytesValue_ones]
  have hlt (x : α) : bytesValue (bytes x) < 256 ^ n := hlen x ▸ bytesValue_lt (bytes x)
  constructor
  · rintro rfl other
    have hother := hlt other
    rw [hcompare]
    omega
  · intro h
    have hle := (hcompare a ones).mp (h ones)
    have ha := hlt a
    exact hinj (bytesValue_inj (by rw [hlen, hlen]) (by omega))

end Ends

theorem Ksuid.bytes_injective : Function.Injective Ksuid.bytes :=
  fun _ _ h => Ksuid.value_inj (congrArg bytesValue h)

theorem Uuidv7.bytes_injective : Function.Injective Uuidv7.bytes :=
  fun _ _ h => Uuidv7.eq_of_value (congrArg bytesValue h)

theorem ksuidNil_bytes : ksuidNil.bytes = List.replicate 20 0x00#8 := Vector.toList_replicate
theorem ksuidMax_bytes : ksuidMax.bytes = List.replicate 20 0xff#8 := Vector.toList_replicate
theorem uuidv7Nil_bytes : uuidv7Nil.bytes = List.replicate 16 0x00#8 := Vector.toList_replicate
theorem uuidv7Max_bytes : uuidv7Max.bytes = List.replicate 16 0xff#8 := Vector.toList_replicate

theorem ksuidIsNil_iff {id : Ksuid} : ksuidIsNil id = true ↔ id = ksuidNil := by
  rw [ksuidIsNil, decide_eq_true_iff, memcmp_eq_iff (by simp)]
  exact ⟨fun h => Ksuid.bytes_injective h, congrArg Ksuid.bytes⟩

theorem uuidv7IsNil_iff {id : Uuidv7} : uuidv7IsNil id = true ↔ id = uuidv7Nil := by
  rw [uuidv7IsNil, decide_eq_true_iff, memcmp_eq_iff (by simp)]
  exact ⟨fun h => Uuidv7.bytes_injective h, congrArg Uuidv7.bytes⟩

theorem signOf_nonpos {o : Ordering} : signOf o ≤ 0 ↔ o ≠ .gt := by cases o <;> decide

theorem signOf_nonneg {o : Ordering} : 0 ≤ signOf o ↔ o ≠ .lt := by cases o <;> decide

/-- The sentinels do not carry the marks that every made identifier carries. -/
theorem noSentinel_of_value {id : Uuidv7} {f : Uuidv7Fields} (h : bytesValue id.bytes = f.value) :
    id.NoSentinel := by
  have hversion := (marks_of_value h).1
  refine ⟨Bool.eq_false_iff.mpr fun hnil => ?_, fun hmax => ?_⟩
  · rw [uuidv7IsNil_iff.mp hnil] at hversion
    exact absurd hversion (by decide)
  · rw [hmax] at hversion
    exact absurd hversion (by decide)

theorem fromParts_noSentinel {out : Uuidv7} {ms : Int} {a : Word16} {b : Vector Byte 8}
    (h : (uuidv7FromParts out ms a b).1 = .ok) : (uuidv7FromParts out ms a b).2.NoSentinel := by
  obtain ⟨h0, hm⟩ := parts_ok_iff.mp h
  exact noSentinel_of_value (parts_value h0 hm out a b)

theorem new_noSentinel {src : RandomSource} {k : ℕ} {now : Int} {out : Uuidv7}
    (h : (uuidv7New src k now out).err = .ok) : (uuidv7New src k now out).out.NoSentinel := by
  rw [uuidv7New, uuidv7NewWithTime] at h ⊢
  split_ifs at h ⊢
  exact fromParts_noSentinel h

theorem emitted_noSentinel (src : RandomSource) {st : SequenceRun} (hv : st.seq.Valid)
    (calls : List NextCall) :
    ∀ id ∈ Machine.emitted (sequenceStep src) st calls, id.NoSentinel := by
  refine Machine.emitted_forall (I := fun st : SequenceRun => st.seq.Valid) (fun st c hs => ?_)
    hv calls
  have hstep := next_step src st.draws c.wallMs hs c.out
  have hvalid := next_valid hs hstep
  refine ⟨hvalid, fun id hid => ?_⟩
  simp only [sequenceStep, Option.ite_none_right_eq_some, Option.some.injEq] at hid
  obtain ⟨hok, rfl⟩ := hid
  generalize uuidv7SequenceNext src st.draws c.wallMs st.seq c.out = r at *
  cases hstep with
  | exhausted | tailFailed | counterFailed => cases hok
  | fresh | increment => exact noSentinel_of_value hvalid.emit_value

theorem ksuidNil_value : ksuidNil.value = 0 := by
  rw [Ksuid.value, ksuidNil_bytes, bytesValue_zeros]

theorem ksuidMax_value : ksuidMax.value = 2 ^ 160 - 1 := by
  have hones := bytesValue_ones 20
  rw [Ksuid.value, ksuidMax_bytes]
  omega

/-- A KSUID sequence comes upon a sentinel at one end of its run at most, and just if the seed
starts as the sentinel does. -/
theorem emitted_sentinels {seed : Ksuid} {calls : List KsuidSequenceCall} {i : ℕ} {id : Ksuid}
    (h : (Machine.emitted ksuidSequenceStep (ksuidSequenceInit seed) calls)[i]? = some id) :
    (ksuidIsNil id = true ↔ i = 0 ∧ seed.bytes.take 18 = ksuidNil.bytes.take 18) ∧
      (id = ksuidMax ↔ i = 65535 ∧ seed.bytes.take 18 = ksuidMax.bytes.take 18) := by
  rw [emitted_ids, List.getElem?_map, Option.map_eq_some_iff] at h
  obtain ⟨j, hj, rfl⟩ := h
  obtain ⟨hlt, rfl⟩ := List.getElem?_eq_some_iff.mp hj
  rw [List.length_range] at hlt
  have hi : i < 65536 := by omega
  have hseed := seed.value_lt
  have hvalue := sequenceId_value seed hi
  rw [List.getElem_range, ksuidIsNil_iff, Ksuid.prefix_eq_iff, Ksuid.prefix_eq_iff, ksuidNil_value,
    ksuidMax_value]
  constructor
  · constructor
    · intro hnil
      rw [hnil, ksuidNil_value] at hvalue
      omega
    · rintro ⟨rfl, hprefix⟩
      refine Ksuid.value_inj ?_
      rw [hvalue, ksuidNil_value]
      omega
  · constructor
    · intro hmax
      rw [hmax, ksuidMax_value] at hvalue
      omega
    · rintro ⟨rfl, hprefix⟩
      refine Ksuid.value_inj ?_
      rw [hvalue, ksuidMax_value]
      omega

/-- The nil and max constants are the first and the last identifiers of their format, for every
kernel that compares and in every text, and `is_nil` knows the first. A KSUID sequence may come upon
one at an end of its run, just if its seed starts so; no UUIDv7 that is made, by itself or in
whatever run of a sequence, is one. -/
theorem sentinels_bracket :
    (∀ (simd : Simd) (id : Ksuid), (ksuidIsNil id = true ↔ id = ksuidNil) ∧
      (ksuidIsNil id = true ↔ ∀ other, ksuidCompare simd id other ≤ 0) ∧
      (id = ksuidMax ↔ ∀ other, 0 ≤ ksuidCompare simd id other)) ∧
    (∀ id : Uuidv7, (uuidv7IsNil id = true ↔ id = uuidv7Nil) ∧
      (uuidv7IsNil id = true ↔ ∀ other, uuidv7Compare id other ≠ .gt) ∧
      (id = uuidv7Max ↔ ∀ other, uuidv7Compare id other ≠ .lt)) ∧
    (∀ g : GenId, memcmp g.idformat.nil.text g.text ≠ .gt ∧
      memcmp g.idformat.max.text g.text ≠ .lt) ∧
    (∀ (seed : Ksuid) (calls : List KsuidSequenceCall) (i : ℕ) (id : Ksuid),
      (Machine.emitted ksuidSequenceStep (ksuidSequenceInit seed) calls)[i]? = some id →
        (ksuidIsNil id = true ↔ i = 0 ∧ seed.bytes.take 18 = ksuidNil.bytes.take 18) ∧
          (id = ksuidMax ↔ i = 65535 ∧ seed.bytes.take 18 = ksuidMax.bytes.take 18)) ∧
    (∀ (out : Uuidv7) (ms : Int) (a : Word16) (b : Vector Byte 8),
      (uuidv7FromParts out ms a b).1 = .ok → (uuidv7FromParts out ms a b).2.NoSentinel) ∧
    (∀ (src : RandomSource) (k : ℕ) (now : Int) (out : Uuidv7),
      (uuidv7New src k now out).err = .ok → (uuidv7New src k now out).out.NoSentinel) ∧
    ∀ (src : RandomSource) (k₀ k : ℕ) (s₀ s : Uuidv7Sequence),
      uuidv7SequenceInit src k₀ s₀ = ⟨.ok, s, k⟩ →
      ∀ calls, ∀ id ∈ Machine.emitted (sequenceStep src) ⟨s, k⟩ calls, id.NoSentinel := by
  have hksuid := zeros_iff_first Ksuid.bytes_injective Ksuid.length_bytes ksuidNil_bytes
  have hksuid' := ones_iff_last Ksuid.bytes_injective Ksuid.length_bytes ksuidMax_bytes
  have huuid := zeros_iff_first Uuidv7.bytes_injective Uuidv7.length_bytes uuidv7Nil_bytes
  have huuid' := ones_iff_last Uuidv7.bytes_injective Uuidv7.length_bytes uuidv7Max_bytes
  refine ⟨fun simd id => ?_, fun id => ?_, fun g => ?_, fun _ _ _ _ => emitted_sentinels,
    fun _ _ _ _ => fromParts_noSentinel, fun _ _ _ _ => new_noSentinel,
    fun src _ _ _ _ hinit calls => emitted_noSentinel src (init_ok hinit).1 calls⟩
  · simp only [ksuidCompare_eq, signOf_nonpos, signOf_nonneg]
    exact ⟨ksuidIsNil_iff, ksuidIsNil_iff.trans (hksuid id), hksuid' id⟩
  · exact ⟨uuidv7IsNil_iff, uuidv7IsNil_iff.trans (huuid id), huuid' id⟩
  · rw [GenId.memcmp_text g.idformat.nil_idformat, GenId.memcmp_text g.idformat.max_idformat]
    cases g with
    | ksuid id => exact ⟨(hksuid ksuidNil).mp rfl id, (hksuid' ksuidMax).mp rfl id⟩
    | uuidv7 id => exact ⟨(huuid uuidv7Nil).mp rfl id, (huuid' uuidv7Max).mp rfl id⟩

end Chronoid
