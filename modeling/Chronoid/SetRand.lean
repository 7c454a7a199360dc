import Chronoid.Library.Machine
import Mathlib.Data.List.GetD
import Mathlib.Logic.Function.Basic

/-! The random source override: two slots that one thread stores and the draws of the others
load, every access a step of one total order. -/

namespace Chronoid

/-- What a draw calls. -/
inductive FillSource (F C : Type*) where
  | randomBytes
  | override (fn : F) (ctx : C)
  deriving DecidableEq

/-- The slots, and where each thread is: `todo` are the calls the storing thread has yet to make,
`storing` is the function of a call between its two stores, and `loaded` that of a draw between
its two loads. -/
structure RngOverride (ι F C : Type*) where
  gRngFn : Option F
  gRngCtx : C
  todo : List (Option F × C)
  storing : Option (Option F)
  loaded : ι → Option F

variable {ι F C F' C' : Type*}

def setRand (s : RngOverride ι F C) : RngOverride ι F C :=
  match s.storing, s.todo with
  | some fn, _ => { s with gRngFn := fn, storing := none }
  | none, (fn, ctx) :: todo => { s with gRngCtx := ctx, storing := some fn, todo := todo }
  | none, [] => s

def internalFillRandom [DecidableEq ι] (s : RngOverride ι F C) (i : ι) :
    RngOverride ι F C × Option (FillSource F C) :=
  match s.loaded i, s.gRngFn with
  | some fn, _ =>
    ({ s with loaded := Function.update s.loaded i none }, some (.override fn s.gRngCtx))
  | none, some fn => ({ s with loaded := Function.update s.loaded i (some fn) }, none)
  | none, none => (s, some .randomBytes)

inductive Turn (ι : Type*) where
  | setter
  | drawer (i : ι)

def overrideStep [DecidableEq ι] (s : RngOverride ι F C) :
    Turn ι → RngOverride ι F C × Option (FillSource F C)
  | .setter => (setRand s, none)
  | .drawer i => internalFillRandom s i

/-- No override, and no draw under way; the context slot may hold anything. -/
def noOverride (ctx : C) (calls : List (Option F × C)) : RngOverride ι F C :=
  ⟨none, ctx, calls, none, fun _ => none⟩

def draws [DecidableEq ι] (ctx : C) (calls : List (Option F × C)) (turns : List (Turn ι)) :
    List (FillSource F C) :=
  Machine.emitted overrideStep (noOverride ctx calls) turns

def RngOverride.map (f : F → F') (g : C → C') (s : RngOverride ι F C) : RngOverride ι F' C' where
  gRngFn := s.gRngFn.map f
  gRngCtx := g s.gRngCtx
  todo := s.todo.map (Prod.map (Option.map f) g)
  storing := s.storing.map (Option.map f)
  loaded := fun i => (s.loaded i).map f

def FillSource.map (f : F → F') (g : C → C') : FillSource F C → FillSource F' C'
  | .randomBytes => .randomBytes
  | .override fn ctx => .override (f fn) (g ctx)

theorem setRand_map (f : F → F') (g : C → C') (s : RngOverride ι F C) :
    setRand (s.map f g) = (setRand s).map f g := by
  obtain ⟨fn, ctx, todo, storing, loaded⟩ := s
  cases storing with
  | some fn => rfl
  | none => cases todo <;> rfl

theorem update_map [DecidableEq ι] (f : F → F') (loaded : ι → Option F) (i : ι) (v : Option F) :
    Function.update (fun j => (loaded j).map f) i (v.map f) = fun j =>
      (Function.update loaded i v j).map f := by
  funext j
  exact (Function.apply_update (fun _ => Option.map f) loaded i v j).symm

theorem internalFillRandom_map [DecidableEq ι] (f : F → F') (g : C → C') (s : RngOverride ι F C)
    (i : ι) : internalFillRandom (s.map f g) i =
      ((internalFillRandom s i).1.map f g,
        (internalFillRandom s i).2.map (FillSource.map f g)) := by
  obtain ⟨fn, ctx, todo, storing, loaded⟩ := s
  cases hi : loaded i with
  | some fn =>
    simp only [internalFillRandom, RngOverride.map, hi, Option.map_some, ← update_map]
    rfl
  | none =>
    cases fn with
    | some fn =>
      simp only [internalFillRandom, RngOverride.map, hi, Option.map_some, Option.map_none,
        ← update_map]
    | none =>
      simp only [internalFillRandom, RngOverride.map, hi, Option.map_none]
      rfl

theorem draws_map [DecidableEq ι] (f : F → F') (g : C → C') (ctx : C) (calls : List (Option F × C))
    (turns : List (Turn ι)) :
    draws (g ctx) (calls.map (Prod.map (Option.map f) g)) turns =
      (draws ctx calls turns).map (FillSource.map f g) := by
  have hstep (s : RngOverride ι F C) (turn : Turn ι) : overrideStep (s.map f g) turn =
      ((overrideStep s turn).1.map f g, (overrideStep s turn).2.map (FillSource.map f g)) := by
    cases turn with
    | setter => exact Prod.ext (setRand_map f g s) rfl
    | drawer i => exact internalFillRandom_map f g s i
  exact Machine.emitted_map hstep (noOverride ctx calls) turns

/-- Pointers that tell the call they come from. -/
def numbered : ℕ → List (Option F × C) → List (Option (F × ℕ) × (C × ℕ))
  | _, [] => []
  | k, (fn, ctx) :: calls => (fn.map (·, k), (ctx, k)) :: numbered (k + 1) calls

theorem numbered_fst (k : ℕ) (calls : List (Option F × C)) :
    (numbered k calls).map (Prod.map (Option.map Prod.fst) Prod.fst) = calls := by
  induction calls generalizing k with
  | nil => rfl
  | cons c calls ih =>
    obtain ⟨fn, ctx⟩ := c
    rw [numbered, List.map_cons, ih]
    cases fn <;> rfl

/-- `fn` is from one of the calls up to number `m`; `calls` starts with call 0, the slots' initial
contents. -/
def FromCall (calls : List (Option F × C)) (m : ℕ) (fn : F × ℕ) : Prop :=
  fn.2 ≤ m ∧ ∃ ctx, calls[fn.2]? = some (some fn.1, ctx)

/-- The context slot is ahead of the function slot and of every draw under way. -/
structure CtxAhead (calls : List (Option F × C)) (s : RngOverride ι (F × ℕ) (C × ℕ)) : Prop where
  ctx : ∃ fn, calls[s.gRngCtx.2]? = some (fn, s.gRngCtx.1)
  todo : s.todo = numbered (s.gRngCtx.2 + 1) (calls.drop (s.gRngCtx.2 + 1))
  storing : ∀ fn, s.storing = some (some fn) → FromCall calls s.gRngCtx.2 fn
  slot : ∀ fn, s.gRngFn = some fn → FromCall calls s.gRngCtx.2 fn
  loaded : ∀ i fn, s.loaded i = some fn → FromCall calls s.gRngCtx.2 fn

variable {calls : List (Option F × C)} {s : RngOverride ι (F × ℕ) (C × ℕ)}

theorem FromCall.mono {m m' : ℕ} {fn : F × ℕ} (h : FromCall calls m fn) (hle : m ≤ m') :
    FromCall calls m' fn :=
  ⟨Nat.le_trans h.1 hle, h.2⟩

theorem numbered_drop_cons {k : ℕ} {fn : Option (F × ℕ)} {ctx : C × ℕ}
    {todo : List (Option (F × ℕ) × (C × ℕ))} (h : numbered k (calls.drop k) = (fn, ctx) :: todo) :
    ∃ f, fn = f.map (·, k) ∧ ctx.2 = k ∧ calls[k]? = some (f, ctx.1) ∧
      todo = numbered (k + 1) (calls.drop (k + 1)) := by
  cases hdrop : calls.drop k with
  | nil =>
    rw [hdrop] at h
    cases h
  | cons c rest =>
    obtain ⟨f, c⟩ := c
    rw [hdrop, numbered] at h
    cases h
    refine ⟨f, rfl, rfl, ?_, ?_⟩
    · rw [← Nat.add_zero k, ← List.getElem?_drop, hdrop]
      rfl
    · rw [← List.drop_drop, hdrop, List.drop_one, List.tail_cons]

theorem CtxAhead.setRand (h : CtxAhead calls s) : CtxAhead calls (setRand s) := by
  obtain ⟨fn, ctx, todo, storing, loaded⟩ := s
  obtain ⟨hctx, htodo, hstoring, hslot, hloaded⟩ := h
  cases storing with
  | some f =>
    refine ⟨hctx, htodo, nofun, fun g hg => hstoring g ?_, hloaded⟩
    exact congrArg some hg
  | none =>
    cases todo with
    | nil => exact ⟨hctx, htodo, hstoring, hslot, hloaded⟩
    | cons c todo =>
      obtain ⟨f, c, k⟩ := c
      have hcons : numbered (ctx.2 + 1) (calls.drop (ctx.2 + 1)) = (f, c, k) :: todo := htodo.symm
      obtain ⟨g, rfl, hk, hcall, rfl⟩ := numbered_drop_cons hcons
      obtain rfl : k = ctx.2 + 1 := hk
      have hle : ctx.2 ≤ ctx.2 + 1 := Nat.le_succ ctx.2
      refine ⟨⟨g, hcall⟩, rfl, ?_, fun f hf => (hslot f hf).mono hle,
        fun i f hf => (hloaded i f hf).mono hle⟩
      rintro ⟨f, j⟩ hf
      obtain ⟨a, rfl, hpair⟩ := Option.map_eq_some_iff.mp (Option.some.inj hf)
      cases hpair
      exact ⟨Nat.le_refl _, c, hcall⟩

/-- A draw that calls a hook calls it with the context of the same call or of a later one. -/
def FillSource.Paired (calls : List (Option F × C)) : FillSource (F × ℕ) (C × ℕ) → Prop
  | .randomBytes => True
  | .override (fn, k) (ctx, j) =>
    k ≤ j ∧ (∃ ctx', calls[k]? = some (some fn, ctx')) ∧ ∃ fn', calls[j]? = some (fn', ctx)

theorem CtxAhead.fillRandom [DecidableEq ι] (h : CtxAhead calls s) (i : ι) :
    CtxAhead calls (internalFillRandom s i).1 ∧ ∀ d, (internalFillRandom s i).2 = some d →
      d.Paired calls := by
  obtain ⟨fn, ctx, todo, storing, loaded⟩ := s
  obtain ⟨hctx, htodo, hstoring, hslot, hloaded⟩ := h
  have hupdate (v : Option (F × ℕ)) (hv : ∀ f, v = some f → FromCall calls ctx.2 f) (j : ι)
      (f : F × ℕ) (hf : Function.update loaded i v j = some f) : FromCall calls ctx.2 f := by
    by_cases hj : j = i
    · rw [hj, Function.update_self] at hf
      exact hv f hf
    · rw [Function.update_of_ne hj] at hf
      exact hloaded j f hf
  cases hi : loaded i with
  | some f =>
    simp only [internalFillRandom, hi]
    refine ⟨⟨hctx, htodo, hstoring, hslot, hupdate none nofun⟩, fun d hd => ?_⟩
    cases hd
    have hfrom := hloaded i f hi
    exact ⟨hfrom.1, hfrom.2, hctx⟩
  | none =>
    cases fn with
    | some f =>
      simp only [internalFillRandom, hi]
      exact ⟨⟨hctx, htodo, hstoring, hslot, hupdate (some f) hslot⟩, nofun⟩
    | none =>
      simp only [internalFillRandom, hi]
      refine ⟨⟨hctx, htodo, hstoring, hslot, hloaded⟩, fun d hd => ?_⟩
      cases hd
      trivial

theorem draws_paired [DecidableEq ι] (ctx : C) (calls : List (Option F × C))
    (turns : List (Turn ι)) :
    ∀ d ∈ draws (ctx, 0) (numbered 1 calls) turns, d.Paired ((none, ctx) :: calls) := by
  have hstart : CtxAhead ((none, ctx) :: calls)
      (noOverride (ctx, 0) (numbered 1 calls) : RngOverride ι (F × ℕ) (C × ℕ)) :=
    ⟨⟨none, rfl⟩, rfl, nofun, nofun, nofun⟩
  have hstep (s : RngOverride ι (F × ℕ) (C × ℕ)) (turn : Turn ι)
      (h : CtxAhead ((none, ctx) :: calls) s) :
      CtxAhead ((none, ctx) :: calls) (overrideStep s turn).1 ∧
        ∀ d, (overrideStep s turn).2 = some d → d.Paired ((none, ctx) :: calls) := by
    cases turn with
    | setter => exact ⟨h.setRand, nofun⟩
    | drawer i => exact h.fillRandom i
  exact Machine.emitted_forall hstep hstart turns

theorem draws_numbered [DecidableEq ι] (ctx : C) (calls : List (Option F × C))
    (turns : List (Turn ι)) : draws ctx calls turns =
      (draws (ctx, 0) (numbered 1 calls) turns).map (FillSource.map Prod.fst Prod.fst) := by
  rw [← draws_map Prod.fst Prod.fst, numbered_fst]

theorem getElem?_pair {α : Type*} {a b x : α} {k : ℕ} (h : [a, b][k]? = some x) :
    k = 0 ∧ x = a ∨ k = 1 ∧ x = b := by
  match k with
  | 0 => exact .inl ⟨rfl, (Option.some.inj h).symm⟩
  | 1 => exact .inr ⟨rfl, (Option.some.inj h).symm⟩

/-- However the accesses interleave, a draw that loads the function of call `k` calls it with the
context of some call `j ≥ k`; so with one call to install an override, never with another
context. -/
theorem set_rand_pairing [DecidableEq ι] :
    (∀ (ctx : C) (calls : List (Option F × C)) (turns : List (Turn ι)),
      draws ctx calls turns =
          (draws (ctx, 0) (numbered 1 calls) turns).map (FillSource.map Prod.fst Prod.fst) ∧
        ∀ fn k ctx' j, .override (fn, k) (ctx', j) ∈ draws (ctx, 0) (numbered 1 calls) turns →
          k ≤ j ∧ (∃ c, ((none, ctx) :: calls)[k]? = some (some fn, c)) ∧
            ∃ f, ((none, ctx) :: calls)[j]? = some (f, ctx')) ∧
    ∀ (ctx₀ : C) (fn : F) (ctx : C) (turns : List (Turn ι)),
      ∀ d ∈ draws ctx₀ [(some fn, ctx)] turns, d = .randomBytes ∨ d = .override fn ctx := by
  constructor
  · intro ctx calls turns
    exact ⟨draws_numbered ctx calls turns, fun fn k ctx' j h => draws_paired ctx calls turns _ h⟩
  · intro ctx₀ fn ctx turns d hd
    rw [draws_numbered] at hd
    obtain ⟨d, hd', rfl⟩ := List.mem_map.mp hd
    cases d with
    | randomBytes => exact .inl rfl
    | override f c =>
      obtain ⟨f, k⟩ := f
      obtain ⟨c, j⟩ := c
      obtain ⟨hle, ⟨c', hfn⟩, f', hctx⟩ := draws_paired ctx₀ [(some fn, ctx)] turns _ hd'
      rcases getElem?_pair hfn with ⟨-, hfn⟩ | ⟨rfl, hfn⟩
      · cases hfn
      · rcases getElem?_pair hctx with ⟨rfl, -⟩ | ⟨-, hctx⟩
        · omega
        · cases hfn
          cases hctx
          exact .inr rfl

def crossed : List (Turn ℕ) := [.setter, .setter, .drawer 0, .setter, .drawer 0]

theorem set_rand_pairing_crossed :
    draws 0 [(some 1, 10), (some 2, 20)] crossed = [FillSource.override 1 20] ∧
      1 ≤ 2 ∧ (∃ c, [(none, 0), (some 1, 10), (some 2, 20)][1]? = some (some 1, c)) ∧
        ∃ f, [(none, 0), (some 1, 10), (some 2, 20)][2]? = some (f, 20) := by
  have hdraws : draws (0, 0) (numbered 1 [(some 1, 10), (some 2, 20)]) crossed =
      [FillSource.override (1, 1) (20, 2)] := rfl
  obtain ⟨hplain, hpaired⟩ := set_rand_pairing.1 0 [(some 1, 10), (some 2, 20)] crossed
  refine ⟨?_, hpaired 1 1 20 2 ?_⟩
  · rw [hplain, hdraws]
    rfl
  · rw [hdraws]
    exact List.mem_singleton_self _

end Chronoid
