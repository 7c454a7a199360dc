import Chronoid.GenGenerate
import Chronoid.TextOrder

/-! The wall clock of the generators, and how the identifiers made at two readings of it sort. -/

namespace Chronoid

/-- What `timespec_get` fills in. -/
structure Timespec where
  tvSec : Word64
  tvNsec : ℕ
  tvNsec_lt : tvNsec < 1000000000

/-- Milliseconds, with whether the arithmetic overflowed on the way: C leaves its value undefined
then, and the model goes on with the two's complement one. -/
structure NowMs where
  value : Word64
  overflow : Bool

/-- `fn` is what the test override of the clock returns, if there is one. -/
def nowMs (fn : Option Word64) (ts : Option Timespec) : NowMs :=
  match fn with
  | some ms => ⟨ms, false⟩
  | none =>
    match ts with
    | none => ⟨-1#64, false⟩
    | some ts =>
      let ms := BitVec.ofNat 64 (ts.tvNsec / 1000000)
      ⟨ts.tvSec * 1000#64 + ms,
        BitVec.smulOverflow ts.tvSec 1000#64 || BitVec.saddOverflow (ts.tvSec * 1000#64) ms⟩

/-- The time as a number of nanoseconds. -/
def Timespec.nanos (ts : Timespec) : Int := ts.tvSec.toInt * 10 ^ 9 + ts.tvNsec

/-- The number of the second or millisecond that a format keeps of a time. -/
def IdFormat.tick (f : IdFormat) (ts : Timespec) : Int :=
  match f with
  | .ksuid => ts.nanos / 10 ^ 9
  | .uuidv7 => ts.nanos / 10 ^ 6

def IdFormat.TickInRange (f : IdFormat) (tick : Int) : Prop :=
  match f with
  | .ksuid => KsuidTimeInRange tick
  | .uuidv7 => 0 ≤ tick ∧ tick ≤ uuidv7MaxUnixMs

/-- The identifiers that the generators can make when the clock reads `ts`. -/
inductive MadeAt (ts : Timespec) : GenId → Prop
  | ksuid (src : RandomSource) (k : ℕ) (out : Ksuid)
      (herr : (ksuidNew src k (some ts.tvSec) out).err = .ok) :
      MadeAt ts (.ksuid (ksuidNew src k (some ts.tvSec) out).out)
  | uuidv7 (src : RandomSource) (k : ℕ) (out : Uuidv7)
      (hdefined : (nowMs none (some ts)).overflow = false)
      (herr : (uuidv7New src k (nowMs none (some ts)).value.toInt out).err = .ok) :
      MadeAt ts (.uuidv7 (uuidv7New src k (nowMs none (some ts)).value.toInt out).out)

/-- The time that an identifier of either format reads back. -/
def GenId.time : GenId → Int
  | .ksuid id => (ksuidTimeUnix id).toInt
  | .uuidv7 id => uuidv7UnixMs id

theorem Timespec.tick_ksuid (ts : Timespec) : IdFormat.ksuid.tick ts = ts.tvSec.toInt := by
  have hlt := ts.tvNsec_lt
  simp only [IdFormat.tick, Timespec.nanos]
  omega

theorem Timespec.tick_uuidv7 (ts : Timespec) :
    IdFormat.uuidv7.tick ts = ts.tvSec.toInt * 1000 + (ts.tvNsec / 1000000 : ℕ) := by
  have hlt := ts.tvNsec_lt
  simp only [IdFormat.tick, Timespec.nanos]
  omega

theorem smulOverflow_eq_false {w : ℕ} {x y : BitVec w} : BitVec.smulOverflow x y = false ↔
    -2 ^ (w - 1) ≤ x.toInt * y.toInt ∧ x.toInt * y.toInt < 2 ^ (w - 1) := by
  simp only [BitVec.smulOverflow, Bool.or_eq_false_iff, decide_eq_false_iff_not]
  omega

theorem saddOverflow_eq_false {w : ℕ} {x y : BitVec w} : BitVec.saddOverflow x y = false ↔
    -2 ^ (w - 1) ≤ x.toInt + y.toInt ∧ x.toInt + y.toInt < 2 ^ (w - 1) := by
  simp only [BitVec.saddOverflow, Bool.or_eq_false_iff, decide_eq_false_iff_not]
  omega

theorem Timespec.toInt_ms (ts : Timespec) :
    (BitVec.ofNat 64 (ts.tvNsec / 1000000)).toInt = (ts.tvNsec / 1000000 : ℕ) := by
  have hlt := ts.tvNsec_lt
  have hnat : (BitVec.ofNat 64 (ts.tvNsec / 1000000)).toNat = ts.tvNsec / 1000000 := by
    rw [BitVec.toNat_ofNat, Nat.mod_eq_of_lt (by omega)]
  rw [BitVec.toInt_eq_toNat_of_lt (by omega), hnat]

theorem toInt_thousand : (1000#64 : Word64).toInt = 1000 := by decide

/-- The arithmetic is free of overflow just when the milliseconds fit, and then it is exact. -/
theorem nowMs_defined_iff (ts : Timespec) : (nowMs none (some ts)).overflow = false ↔
    -2 ^ 63 ≤ ts.tvSec.toInt * 1000 ∧ IdFormat.uuidv7.tick ts < 2 ^ 63 := by
  simp only [nowMs, Bool.or_eq_false_iff, smulOverflow_eq_false, saddOverflow_eq_false,
    toInt_thousand, ts.toInt_ms, ts.tick_uuidv7]
  constructor
  · rintro ⟨hmul, hadd⟩
    have hprod : (ts.tvSec * 1000#64).toInt = ts.tvSec.toInt * 1000 := by
      rw [BitVec.toInt_mul_of_not_smulOverflow, toInt_thousand]
      rwa [Bool.not_eq_true, smulOverflow_eq_false, toInt_thousand]
    rw [hprod] at hadd
    exact ⟨hmul.1, hadd.2⟩
  · rintro ⟨hlow, hhigh⟩
    have hmul : -2 ^ (64 - 1) ≤ ts.tvSec.toInt * 1000 ∧
        ts.tvSec.toInt * 1000 < 2 ^ (64 - 1) := by omega
    have hprod : (ts.tvSec * 1000#64).toInt = ts.tvSec.toInt * 1000 := by
      rw [BitVec.toInt_mul_of_not_smulOverflow, toInt_thousand]
      rwa [Bool.not_eq_true, smulOverflow_eq_false, toInt_thousand]
    rw [hprod]
    exact ⟨hmul, by omega, by omega⟩

theorem toInt_nowMs {ts : Timespec} (h : (nowMs none (some ts)).overflow = false) :
    (nowMs none (some ts)).value.toInt = IdFormat.uuidv7.tick ts := by
  simp only [nowMs, Bool.or_eq_false_iff] at h ⊢
  rw [BitVec.toInt_add_of_not_saddOverflow (by simp [h.2]),
    BitVec.toInt_mul_of_not_smulOverflow (by simp [h.1]), toInt_thousand, ts.toInt_ms,
    ts.tick_uuidv7]

theorem ksuidNew_ok {src : RandomSource} {k : ℕ} {t : Word64} {out : Ksuid}
    (h : (ksuidNew src k (some t) out).err = .ok) :
    KsuidTimeInRange t.toInt ∧ ksuidTimeUnix (ksuidNew src k (some t) out).out = t := by
  have ht : KsuidTimeInRange t.toInt := by
    by_contra hout
    have herr := ((newWithTime_step src k out t).undrawn hout).1
    exact absurd (h.symm.trans herr) (by decide)
  have hret : (src k).ret = 0 := by
    by_contra hret
    have hin := mt (corrected_out_iff t).mp (not_not.mpr ht)
    simp only [ksuidNew, ksuidNewWithTime, if_neg hin, if_pos (show (src k).ret ≠ 0 from hret)] at h
    cases h
  obtain ⟨id, hparts, htime, -⟩ := fromParts_made out ((src k).buf 16) ht
  simp only [ksuidNew, newWithTime_eq_fromParts src k out ht hret, hparts]
  exact ⟨ht, htime⟩

theorem uuidv7New_ok {src : RandomSource} {k : ℕ} {now : Int} {out : Uuidv7}
    (h : (uuidv7New src k now out).err = .ok) :
    (0 ≤ now ∧ now ≤ uuidv7MaxUnixMs) ∧ uuidv7UnixMs (uuidv7New src k now out).out = now := by
  have hnow : 0 ≤ now ∧ now ≤ uuidv7MaxUnixMs := by
    by_contra hout
    have herr := ((uuidv7New_step src k out now).undrawn (by omega)).1
    exact absurd (h.symm.trans herr) (by decide)
  have hret : (src k).ret = 0 := by
    by_contra hret
    have hin : ¬(now < 0 ∨ now > uuidv7MaxUnixMs) := by omega
    simp only [uuidv7New, uuidv7NewWithTime, if_neg hin,
      if_pos (show (src k).ret ≠ 0 from hret)] at h
    cases h
  have hvalue := parts_value hnow.1 hnow.2 out (randA12bit ((src k).buf 10))
    (Vector.ofFn fun j : Fin 8 => ((src k).buf 10).get (j.natAdd 2))
  have hms := (marks_of_value hvalue).2.2
  rw [fieldsOf_ms] at hms
  simp only [uuidv7New_made src k hnow hret]
  refine ⟨hnow, hms.trans ?_⟩
  have hmax : now ≤ 2 ^ 48 - 1 := hnow.2
  omega

/-- An identifier reads back the tick of the clock it was made at. -/
theorem MadeAt.tick {ts : Timespec} {g : GenId} (h : MadeAt ts g) :
    g.idformat.TickInRange (g.idformat.tick ts) ∧ g.time = g.idformat.tick ts := by
  cases h with
  | ksuid src k out herr =>
    obtain ⟨ht, htime⟩ := ksuidNew_ok herr
    refine ⟨?_, ?_⟩
    · rw [← ts.tick_ksuid] at ht
      exact ht
    · rw [GenId.time, htime]
      exact ts.tick_ksuid.symm
  | uuidv7 src k out hdefined herr =>
    obtain ⟨hnow, hms⟩ := uuidv7New_ok herr
    rw [toInt_nowMs hdefined] at hnow
    exact ⟨hnow, hms.trans (toInt_nowMs hdefined)⟩

def zeroSource : RandomSource := fun _ => ⟨0, fun _ => 0#8⟩

theorem nowMs_defined {ts : Timespec} (h : IdFormat.uuidv7.TickInRange (IdFormat.uuidv7.tick ts)) :
    (nowMs none (some ts)).overflow = false := by
  have hlow : 0 ≤ IdFormat.uuidv7.tick ts := h.1
  have hmax : IdFormat.uuidv7.tick ts ≤ 2 ^ 48 - 1 := h.2
  have hlt := ts.tvNsec_lt
  rw [ts.tick_uuidv7] at hlow
  exact (nowMs_defined_iff ts).mpr ⟨by omega, by omega⟩

theorem madeAt_of_tick {ts : Timespec} {f : IdFormat} (h : f.TickInRange (f.tick ts)) :
    ∃ g, MadeAt ts g ∧ g.idformat = f := by
  cases f with
  | ksuid =>
    have ht : KsuidTimeInRange ts.tvSec.toInt := ts.tick_ksuid ▸ h
    obtain ⟨id, hparts, -⟩ := fromParts_made ⟨Vector.replicate 20 0#8⟩ ((zeroSource 0).buf 16) ht
    refine ⟨_, .ksuid zeroSource 0 ⟨Vector.replicate 20 0#8⟩ ?_, rfl⟩
    simp only [ksuidNew, newWithTime_eq_fromParts zeroSource 0 _ ht rfl, hparts]
  | uuidv7 =>
    have hdefined := nowMs_defined h
    refine ⟨_, .uuidv7 zeroSource 0 ⟨Vector.replicate 16 0#8⟩ hdefined ?_, rfl⟩
    have hnow : 0 ≤ (nowMs none (some ts)).value.toInt ∧
        (nowMs none (some ts)).value.toInt ≤ uuidv7MaxUnixMs := by
      rw [toInt_nowMs hdefined]
      exact h
    simp only [uuidv7New_made zeroSource 0 hnow rfl]
    exact parts_ok_iff.mpr hnow

/-- What is made at one reading can be made at another of the same tick. -/
theorem MadeAt.of_tick {a b : Timespec} {g : GenId} (h : MadeAt a g)
    (htick : g.idformat.tick a = g.idformat.tick b) : MadeAt b g := by
  have hrange := htick ▸ h.tick.1
  cases h with
  | ksuid src k out herr =>
    have hsec : a.tvSec = b.tvSec := by
      refine BitVec.eq_of_toInt_eq ?_
      rw [← a.tick_ksuid, ← b.tick_ksuid]
      exact htick
    rw [hsec] at herr ⊢
    exact .ksuid src k out herr
  | uuidv7 src k out hdefined herr =>
    have hdefined' : (nowMs none (some b)).overflow = false := nowMs_defined hrange
    have hvalue : (nowMs none (some a)).value = (nowMs none (some b)).value := by
      refine BitVec.eq_of_toInt_eq ?_
      rw [toInt_nowMs hdefined, toInt_nowMs hdefined']
      exact htick
    rw [hvalue] at herr ⊢
    exact .uuidv7 src k out hdefined' herr

theorem signOf_eq_neg_one {o : Ordering} (h : signOf o = -1) : o = .lt := by
  cases o with
  | lt => rfl
  | eq => exact absurd h (by decide)
  | gt => exact absurd h (by decide)

/-- In one format the earlier time sorts first. -/
theorem GenId.bytes_lt {g g' : GenId} (hformat : g.idformat = g'.idformat) (h : g.time < g'.time) :
    memcmp g.bytes g'.bytes = .lt := by
  cases g with
  | ksuid a =>
    cases g' with
    | ksuid b =>
      refine signOf_eq_neg_one (show signOf (memcmp a.bytes b.bytes) = -1 from ?_)
      have hcompare : compare (ksuidTimeUnix a).toInt (ksuidTimeUnix b).toInt = .lt :=
        Int.compare_eq_lt.mpr h
      rw [← ksuidCompare_eq .scalar, ksuidCompare_parts, ksuidPartsOrder, hcompare]
      rfl
    | uuidv7 b => cases hformat
  | uuidv7 a =>
    cases g' with
    | ksuid b => cases hformat
    | uuidv7 b =>
      refine uuidv7Compare_lt_iff.mpr ?_
      have hms : uuidv7UnixMs a < uuidv7UnixMs b := h
      rw [unixMs_value, unixMs_value] at hms
      exact Nat.lt_of_div_lt_div (by exact_mod_cast hms)

theorem GenId.length_bytes_eq {g g' : GenId} (hformat : g.idformat = g'.idformat) :
    g.bytes.length = g'.bytes.length := by
  rw [g.length_bytes, g'.length_bytes, hformat]

theorem GenId.memcmp_text {g g' : GenId} (hformat : g.idformat = g'.idformat) :
    memcmp g.text g'.text = memcmp g.bytes g'.bytes := by
  cases g with
  | ksuid a =>
    cases g' with
    | ksuid b =>
      simp only [GenId.text, GenId.bytes]
      rw [memcmp_base62Text a.value_lt_numeral b.value_lt_numeral, memcmp_eq_compare (by simp)]
      rfl
    | uuidv7 b => cases hformat
  | uuidv7 a =>
    cases g' with
    | ksuid b => cases hformat
    | uuidv7 b =>
      have hh :=
        memcmp_uuidv7Format false false a b (Vector.replicate 36 0#8) (Vector.replicate 36 0#8)
      rw [uuidv7Format, uuidv7Format, hexEncodeLower_eq, hexEncodeLower_eq] at hh
      exact hh

/-- Whatever the random bytes, identifiers sort by the clock that they were made at: the generators
make one just at the readings whose tick the format has room for, it reads that tick back, and those
of two readings sort by the readings, as bytes and as text, exactly if the ticks differ. The two
formats agree on the second of one reading. -/
theorem made_ids_sort_by_time :
    (∀ (f : IdFormat) (ts : Timespec), (∃ g, MadeAt ts g ∧ g.idformat = f) ↔
      f.TickInRange (f.tick ts)) ∧
    (∀ ts g, MadeAt ts g → g.time = g.idformat.tick ts) ∧
    (∀ (f : IdFormat) (a b : Timespec), f.TickInRange (f.tick a) → f.TickInRange (f.tick b) →
      (f.tick a < f.tick b ↔ ∀ g g', MadeAt a g → MadeAt b g' → g.idformat = f → g'.idformat = f →
        memcmp g.bytes g'.bytes = .lt ∧ memcmp g.text g'.text = .lt)) ∧
    ∀ ts k u, MadeAt ts (.ksuid k) → MadeAt ts (.uuidv7 u) →
      uuidv7UnixMs u / 1000 = (ksuidTimeUnix k).toInt := by
  refine ⟨fun f ts => ⟨?_, madeAt_of_tick⟩, fun ts g h => h.tick.2,
    fun f a b ha hb => ⟨?_, fun hsort => ?_⟩, ?_⟩
  · rintro ⟨g, h, rfl⟩
    exact h.tick.1
  · intro hlt g g' hg hg' hf hf'
    have hformat := hf.trans hf'.symm
    have hbytes : memcmp g.bytes g'.bytes = .lt := by
      refine GenId.bytes_lt hformat ?_
      rw [hg.tick.2, hg'.tick.2, hf, hf']
      exact hlt
    exact ⟨hbytes, (GenId.memcmp_text hformat).trans hbytes⟩
  · -- of two readings that do not differ so, some identifiers do not sort so
    obtain ⟨g, hg, hf⟩ := madeAt_of_tick ha
    obtain ⟨g', hg', hf'⟩ := madeAt_of_tick hb
    by_contra hle
    rcases (not_lt.mp hle).lt_or_eq with hgt | heq
    · have hback : memcmp g'.bytes g.bytes = .lt := by
        refine GenId.bytes_lt (hf'.trans hf.symm) ?_
        rw [hg.tick.2, hg'.tick.2, hf, hf']
        exact hgt
      have hforth := (hsort g g' hg hg' hf hf').1
      rw [memcmp_lt_iff (GenId.length_bytes_eq (hf.trans hf'.symm))] at hforth
      rw [memcmp_lt_iff (GenId.length_bytes_eq (hf'.trans hf.symm))] at hback
      omega
    · have hsame : MadeAt b g := hg.of_tick (by rw [hf, heq])
      have hlt := (hsort g g hg hsame hf hf).1
      rw [memcmp_self] at hlt
      cases hlt
  · intro ts k u hk hu
    have hksuid : (ksuidTimeUnix k).toInt = IdFormat.ksuid.tick ts := hk.tick.2
    have huuid : uuidv7UnixMs u = IdFormat.uuidv7.tick ts := hu.tick.2
    rw [hksuid, huuid, IdFormat.tick, IdFormat.tick, Int.ediv_ediv_of_nonneg (by decide)]
    rfl

end Chronoid
