import Mathlib.Data.List.Induction
import Mathlib.Data.List.Forall2
import Mathlib.Data.List.Infix

/-!
# Runs of a step function

A step function `step : ι → σ → ρ × σ` answers a call in a state and goes to another state.
`Run.state step is s` is the state after the calls `is` from `s`, `Run.results step is s` are
the answers, and `Run.trace step is s` the calls with their answers.  `Run.Each step P is s`
says that every call satisfies `P` in the state it is made in, and `Run.Throughout step I is s`
that every state of the run satisfies `I`.  What every step keeps holds after every run
(`Run.invariant`), and if the steps of two step functions keep a relation between their states
and give related answers, so do their runs (`Run.simulates`, and `Run.Each.simulates` for calls
of which something is known).  If a call keeps an invariant and behaves exactly if it meets a
condition, then a run does exactly if all its calls meet the condition (`Run.keeps_iff`).  Calls
to parts of a state that do not affect each other are answered as if each part were alone
(`Run.results_of_part`).
`Run.latest f l` is the value of `f` at the last element of a list where it has one.
-/

namespace Run

variable {ι κ ρ ρ' σ τ : Type} (step : ι → σ → ρ × σ)

/-- The state after a run. -/
def state (is : List ι) (s : σ) : σ :=
  is.foldl (fun s i => (step i s).2) s

/-- The calls of a run, each with its answer. -/
def trace : List ι → σ → List (ι × ρ)
  | [], _ => []
  | i :: is, s => (i, (step i s).1) :: trace is (step i s).2

/-- The answers in a run. -/
def results (is : List ι) (s : σ) : List ρ :=
  (trace step is s).map Prod.snd

/-- Every call of a run satisfies `P` in the state it is made in. -/
def Each (P : ι → σ → Prop) : List ι → σ → Prop
  | [], _ => True
  | i :: is, s => P i s ∧ Each P is (step i s).2

/-- Every state of a run satisfies `I`, the first and the last one too. -/
def Throughout (I : σ → Prop) : List ι → σ → Prop
  | [], s => I s
  | i :: is, s => I s ∧ Throughout I is (step i s).2

variable {step}

theorem Throughout.start {I : σ → Prop} {is : List ι} {s : σ} (h : Throughout step I is s) :
  I s
  := by
  cases is with
  | nil => exact h
  | cons i is => exact h.1

theorem Throughout.mono {I J : σ → Prop} (hIJ : ∀ s, I s → J s) {is : List ι} {s : σ}
    (h : Throughout step I is s) :
  Throughout step J is s
  := by
  induction is generalizing s with
  | nil => exact hIJ s h
  | cons i is ih => exact ⟨hIJ s h.1, ih h.2⟩

@[simp]
theorem state_concat (is : List ι) (i : ι) (s : σ) :
  state step (is ++ [i]) s = (step i (state step is s)).2
  := by
  rw [state, List.foldl_append]
  rfl

theorem state_append (is js : List ι) (s : σ) :
  state step (is ++ js) s = state step js (state step is s)
  := List.foldl_append

theorem trace_append (is js : List ι) (s : σ) :
  trace step (is ++ js) s = trace step is s ++ trace step js (state step is s)
  := by
  induction is generalizing s with
  | nil => rfl
  | cons i is ih => exact congrArg (_ :: ·) (ih _)

@[simp]
theorem trace_concat (is : List ι) (i : ι) (s : σ) :
  trace step (is ++ [i]) s = trace step is s ++ [(i, (step i (state step is s)).1)]
  := trace_append is [i] s

/-- What holds at the start and is kept by every step holds after every run. -/
theorem invariant (I : σ → Prop) (keep : ∀ i s, I s → I (step i s).2) {s : σ} (start : I s)
    (is : List ι) :
  I (state step is s)
  := by
  induction is using List.reverseRecOn with
  | nil => apply start
  | append_singleton is i ih =>
      rw [state_concat]
      apply keep _ _ ih

theorem each_true (is : List ι) (s : σ) :
  Each step (fun _ _ => True) is s
  := by
  induction is generalizing s with
  | nil => trivial
  | cons i is ih => exact ⟨trivial, ih _⟩

/-- What holds of a call that satisfies `F` exactly if something else does, holds of all calls of
a run of such calls exactly if that does. -/
theorem each_iff_each {F P Q : ι → σ → Prop} (hPQ : ∀ i s, F i s → (P i s ↔ Q i s))
    {is : List ι} {s : σ} (h : Each step F is s) :
  Each step P is s ↔ Each step Q is s
  := by
  induction is generalizing s with
  | nil => exact Iff.rfl
  | cons i is ih => exact and_congr (hPQ i s h.1) (ih h.2)

/-- If steps that satisfy `F` keep a relation between the states and give related answers, so do
runs of them. -/
theorem Each.simulates {step' : ι → τ → ρ' × τ} {F : ι → σ → Prop} (R : σ → τ → Prop)
    (S : ρ → ρ' → Prop)
    (keep : ∀ i s t, F i s → R s t →
      S (step i s).1 (step' i t).1 ∧ R (step i s).2 (step' i t).2)
    {is : List ι} {s : σ} {t : τ} (h : Each step F is s) (start : R s t) :
  List.Forall₂ S (results step is s) (results step' is t) ∧
    R (state step is s) (state step' is t)
  := by
  induction is generalizing s t with
  | nil => exact ⟨.nil, start⟩
  | cons i is ih =>
      obtain ⟨hresult, hstate⟩ := keep i s t h.1 start
      obtain ⟨hresults, hfinal⟩ := ih h.2 hstate
      exact ⟨.cons hresult hresults, hfinal⟩

/-- If steps keep a relation between the states and give related answers, so do runs. -/
theorem simulates {step' : ι → τ → ρ' × τ} (R : σ → τ → Prop) (S : ρ → ρ' → Prop)
    (keep : ∀ i s t, R s t → S (step i s).1 (step' i t).1 ∧ R (step i s).2 (step' i t).2)
    {s : σ} {t : τ} (start : R s t) (is : List ι) :
  List.Forall₂ S (results step is s) (results step' is t) ∧
    R (state step is s) (state step' is t)
  := (each_true is s).simulates R S (fun i s t _ => keep i s t) start

/-- If steps that satisfy `F` keep an invariant and behave, so do runs of them. -/
theorem Each.keeps {I : σ → Prop} {F P : ι → σ → Prop}
    (keep : ∀ i s, F i s → I s → I (step i s).2 ∧ P i s) {is : List ι} {s : σ}
    (h : Each step F is s) (start : I s) :
  Throughout step I is s ∧ Each step P is s
  := by
  induction is generalizing s with
  | nil => exact ⟨start, trivial⟩
  | cons i is ih =>
      obtain ⟨hnext, hbehaves⟩ := keep i s h.1 start
      obtain ⟨hrest, heach⟩ := ih h.2 hnext
      exact ⟨⟨start, hrest⟩, hbehaves, heach⟩

/-- If a step that satisfies `F` keeps an invariant and behaves exactly if `Q` holds of it, then
runs of such steps do exactly if `Q` holds of every step. -/
theorem keeps_iff {I : σ → Prop} {F P Q : ι → σ → Prop}
    (keeps_iff : ∀ i s, F i s → I s → (I (step i s).2 ∧ P i s ↔ Q i s)) {is : List ι} {s : σ}
    (h : Each step F is s) (start : I s) :
  (Throughout step I is s ∧ Each step P is s) ↔ Each step Q is s
  := by
  induction is generalizing s with
  | nil => exact ⟨fun _ => trivial, fun _ => ⟨start, trivial⟩⟩
  | cons i is ih =>
      constructor
      · rintro ⟨⟨-, hrest⟩, hbehaves, heach⟩
        use (keeps_iff i s h.1 start).mp ⟨hrest.start, hbehaves⟩
        exact (ih h.2 hrest.start).mp ⟨hrest, heach⟩
      · rintro ⟨hQ, hrest⟩
        obtain ⟨hnext, hbehaves⟩ := (keeps_iff i s h.1 start).mpr hQ
        obtain ⟨hthroughout, heach⟩ := (ih h.2 hnext).mpr hrest
        exact ⟨⟨start, hthroughout⟩, hbehaves, heach⟩

/-- Every part of a state is seen through its own view, and a call to a part changes only what is
seen of it: then what a part answers in a run is what it answers when only its calls are made. -/
theorem results_of_part [DecidableEq κ] {step : κ × ι → σ → ρ × σ} {part : ι → τ → ρ × τ}
    (view : κ → σ → τ)
    (own : ∀ a i s, (step (a, i) s).1 = (part i (view a s)).1 ∧
      view a (step (a, i) s).2 = (part i (view a s)).2)
    (other : ∀ a b i s, b ≠ a → view b (step (a, i) s).2 = view b s)
    (is : List (κ × ι)) (s : σ) (a : κ) :
  ((trace step is s).filter fun e => e.1.1 = a).map Prod.snd
    = results part ((is.filter fun i => i.1 = a).map Prod.snd) (view a s)
  := by
  induction is generalizing s with
  | nil => rfl
  | cons i is ih =>
      obtain ⟨b, i⟩ := i
      rw [trace]
      by_cases h : b = a
      · subst h
        rw [List.filter_cons_of_pos (by simp), List.filter_cons_of_pos (by simp), List.map_cons,
          List.map_cons, ih, (own b i s).1, (own b i s).2]
        rfl
      · rw [List.filter_cons_of_neg (by simpa using h), List.filter_cons_of_neg (by simpa using h),
          ih, other b a i s (Ne.symm h)]

/-- The value of `f` at the last element where it has one. -/
def latest {α β : Type} (f : α → Option β) (l : List α) : Option β :=
  l.reverse.findSome? f

@[simp]
theorem latest_concat {α β : Type} (f : α → Option β) (l : List α) (x : α) :
  latest f (l ++ [x]) = (f x).or (latest f l)
  := by
  rw [latest, List.reverse_append, List.reverse_singleton, List.singleton_append,
    List.findSome?_cons]
  cases f x <;> rfl

end Run
