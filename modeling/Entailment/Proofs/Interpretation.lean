import Entailment.Clause.Basic
import Entailment.Formula.Basic
import Entailment.Proofs.Symbol
import Entailment.Proofs.Term

/-! Interpretations and truth. Equations mean identity, and the variables of a
clause are universally quantified. Truth depends only on the meaning of the
symbols of a formula and on the values of its free variables. -/
namespace Entailment

universe u

/-- The meaning of all symbols over the domain `D`, which the meaning of any
constant shows to be non-empty. -/
structure Interpretation (D : Type u) where
  const : Symbol → D
  fn : Symbol → List D → D
  rel : Symbol → List D → Prop

namespace Term

mutual

/-- All symbols of a term, its variables included. -/
def symbols : Term → List Symbol
  | .var x => [x]
  | .const c => [c]
  | .app f args => f :: symbolsAll args

def symbolsAll : List Term → List Symbol
  | [] => []
  | t :: ts => t.symbols ++ symbolsAll ts

end

theorem mem_symbolsAll {ts : List Term} {s : Symbol} :
    s ∈ symbolsAll ts ↔ ∃ t ∈ ts, s ∈ t.symbols := by
  induction ts with
  | nil => simp [symbolsAll]
  | cons t ts ih => simp [symbolsAll, ih]

@[simp] theorem mem_symbols_var {s x : Symbol} : s ∈ (var x).symbols ↔ s = x := by
  rw [symbols, List.mem_singleton]

@[simp] theorem mem_symbols_const {s c : Symbol} : s ∈ (const c).symbols ↔ s = c := by
  rw [symbols, List.mem_singleton]

@[simp] theorem mem_symbols_app {s f : Symbol} {args : List Term} :
    s ∈ (app f args).symbols ↔ s = f ∨ ∃ t ∈ args, s ∈ t.symbols := by
  rw [symbols, List.mem_cons, mem_symbolsAll]

theorem mem_symbols_of_hasVar {x : Symbol} {t : Term} (h : t.hasVar x = true) : x ∈ t.symbols := by
  induction t using rec_args with
  | var y => simpa using h
  | const c => simp at h
  | app f args ih =>
    obtain ⟨t, ht, hx⟩ := (hasVar_app x f args).mp h
    exact mem_symbols_app.mpr (.inr ⟨t, ht, ih t ht hx⟩)

theorem mem_symbols_subst {θ : Symbol → Term} {t : Term} {s : Symbol}
    (h : s ∈ (t.subst θ).symbols) :
    s ∈ t.symbols ∨ ∃ x, t.hasVar x = true ∧ s ∈ (θ x).symbols := by
  induction t using rec_args with
  | var x => exact .inr ⟨x, by simp, h⟩
  | const c => exact .inl h
  | app f args ih =>
    simp only [subst_app, mem_symbols_app, List.mem_map] at h
    rcases h with h | ⟨_, ⟨t, ht, rfl⟩, hs⟩
    · exact .inl (mem_symbols_app.mpr (.inl h))
    · rcases ih t ht hs with hs | ⟨x, hx, hs⟩
      · exact .inl (mem_symbols_app.mpr (.inr ⟨t, ht, hs⟩))
      · exact .inr ⟨x, (hasVar_app x f args).mpr ⟨t, ht, hx⟩, hs⟩

variable {D : Type u}

mutual

/-- The value of a term when the variables have the values of `v`. -/
def eval (I : Interpretation D) (v : Symbol → D) : Term → D
  | .var x => v x
  | .const c => I.const c
  | .app f args => I.fn f (evalAll I v args)

def evalAll (I : Interpretation D) (v : Symbol → D) : List Term → List D
  | [] => []
  | t :: ts => t.eval I v :: evalAll I v ts

end

variable (I : Interpretation D) (v : Symbol → D)

theorem evalAll_eq (ts : List Term) : evalAll I v ts = ts.map (eval I v) := by
  induction ts with
  | nil => rfl
  | cons t ts ih => rw [evalAll, ih, List.map_cons]

@[simp] theorem eval_var (x : Symbol) : (var x).eval I v = v x := rfl

@[simp] theorem eval_const (c : Symbol) : (const c).eval I v = I.const c := rfl

@[simp] theorem eval_app (f : Symbol) (args : List Term) :
    (app f args).eval I v = I.fn f (args.map (eval I v)) := by
  rw [eval, evalAll_eq]

/-- Substituting terms is evaluating under their values. -/
theorem eval_subst (θ : Symbol → Term) (t : Term) :
    (t.subst θ).eval I v = t.eval I fun x => (θ x).eval I v := by
  induction t using rec_args with
  | var x => rfl
  | const c => rfl
  | app f args ih =>
    rw [subst_app, eval_app, eval_app, List.map_map]
    exact congrArg (I.fn f) (List.map_congr_left ih)

end Term

namespace Interpretation

variable {D : Type u}

/-- Both interpretations give the symbols of `P` the same meaning, and all
relations. -/
structure AgreeOn (P : Symbol → Prop) (I J : Interpretation D) : Prop where
  const : ∀ c, P c → I.const c = J.const c
  fn : ∀ f, P f → I.fn f = J.fn f
  rel : I.rel = J.rel

namespace AgreeOn

variable {P Q : Symbol → Prop} {I J K : Interpretation D}

theorem refl (P : Symbol → Prop) (I : Interpretation D) : AgreeOn P I I :=
  ⟨fun _ _ => rfl, fun _ _ => rfl, rfl⟩

theorem trans (h : AgreeOn P I J) (h' : AgreeOn P J K) : AgreeOn P I K :=
  ⟨fun c hc => (h.const c hc).trans (h'.const c hc), fun f hf => (h.fn f hf).trans (h'.fn f hf),
    h.rel.trans h'.rel⟩

theorem mono (h : AgreeOn P I J) (hQ : ∀ s, Q s → P s) : AgreeOn Q I J :=
  ⟨fun c hc => h.const c (hQ c hc), fun f hf => h.fn f (hQ f hf), h.rel⟩

end AgreeOn

end Interpretation

theorem Term.eval_congr {D : Type u} {P : Symbol → Prop} {I J : Interpretation D} {v w : Symbol → D}
    {t : Term} (hI : I.AgreeOn P J) (ht : ∀ s ∈ t.symbols, P s)
    (hv : ∀ x, t.hasVar x = true → v x = w x) : t.eval I v = t.eval J w := by
  induction t using rec_args with
  | var x => exact hv x (by simp)
  | const c => exact hI.const c (ht c (by simp))
  | app f args ih =>
    rw [eval_app, eval_app, hI.fn f (ht f (by simp))]
    congr 1
    apply List.map_congr_left
    intro t hmem
    exact ih t hmem (fun s hs => ht s (mem_symbols_app.mpr (.inr ⟨t, hmem, hs⟩)))
      (fun x hx => hv x ((hasVar_app x f args).mpr ⟨t, hmem, hx⟩))

end Entailment
