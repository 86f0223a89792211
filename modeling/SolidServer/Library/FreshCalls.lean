import SolidServer.Library.Interleaving
import Mathlib.Data.List.Pairwise

/-!
# Calls with fresh keys

An operation may draw a key at random.  `freshCall key` lets operations be called only with a
key that no operation was called with before.  In a run of such calls a key belongs to one
call (`FreshCalls.event_eq`), so that no two clients run operations with the same key.
-/

namespace Atomic

variable {Client C : Type} {R : C → Type} {σ Op Val Env K : Type}

/-- The key of the operation that an event calls. -/
def Event.key (key : Op → Option K) : Event Client C R Op Val → Option K
  | .call _ _ op => key op
  | _ => none

/-- The keys of the operations called in a history. -/
def keys (key : Op → Option K) (history : List (Event Client C R Op Val)) : List K :=
  history.filterMap (Event.key key)

/-- An operation is called with a key that no operation was called with before. -/
def freshCall [DecidableEq K] (key : Op → Option K) (cfg : Config Client C R σ Op Val) :
    Turn Client Op Env → Bool
  | .call _ op => (key op).all fun k => k ∉ keys key cfg.history
  | _ => true

variable {key : Op → Option K}

@[simp]
theorem Event.key_call (i : Client) (n : ℕ) (op : Op) :
  (.call i n op : Event Client C R Op Val).key key = key op
  := rfl

@[simp]
theorem Event.key_act (n : ℕ) (op : Op) (c : C) (r : R c) :
  (.act n op c r : Event Client C R Op Val).key key = none
  := rfl

@[simp]
theorem Event.key_ret (n : ℕ) (op : Op) (v : Val) :
  (.ret n op v : Event Client C R Op Val).key key = none
  := rfl

theorem mem_keys_iff {history : List (Event Client C R Op Val)} {k : K} :
  k ∈ keys key history ↔ ∃ e ∈ history, e.key key = some k
  := List.mem_filterMap

theorem keys_concat (history : List (Event Client C R Op Val)) (e : Event Client C R Op Val) :
  keys key (history ++ [e]) = keys key history ++ (e.key key).toList
  := by
  rw [keys, List.filterMap_append, List.filterMap_cons]
  cases e.key key <;> rfl

/-- A command adds no key. -/
theorem keys_concat_act (history : List (Event Client C R Op Val)) (n : ℕ) (op : Op) (c : C)
    (r : R c) :
  keys key (history ++ [.act n op c r]) = keys key history
  := by
  rw [keys_concat, Event.key_act, Option.toList_none, List.append_nil]

/-- The key of a running operation is one of those in the history. -/
theorem Sound.mem_keys {cfg : Config Client C R σ Op Val} (h : Sound cfg) {i : Client}
    {t : Thread C R Op Val} (ht : cfg.threads i = some t) {k : K} (hk : key t.op = some k) :
  k ∈ keys key cfg.history
  := by
  apply mem_keys_iff.mpr
  use .call i t.ticket t.op, h.calling i t ht
  exact hk

/-- No two calls in the history have the same key. -/
def FreshCalls (key : Op → Option K) (cfg : Config Client C R σ Op Val) : Prop :=
  cfg.history.Pairwise fun e e' => ∀ k, e.key key = some k → e'.key key ≠ some k

namespace FreshCalls

variable {cfg : Config Client C R σ Op Val}

/-- A key belongs to one call. -/
theorem event_eq (h : FreshCalls key cfg) {e e' : Event Client C R Op Val}
    (he : e ∈ cfg.history) (he' : e' ∈ cfg.history) {k : K} (hk : e.key key = some k)
    (hk' : e'.key key = some k) :
  e = e'
  := by
  by_contra hne
  let R (e e' : Event Client C R Op Val) : Prop :=
    ∀ k, e.key key = some k → e'.key key ≠ some k
  have symm : Std.Symm R := by
    constructor
    intro e e' hee' k hk hk'
    exact hee' k hk' hk
  have apart : R e e' := List.Pairwise.forall h he he' hne
  exact apart k hk hk'

/-- No two clients run operations with the same key. -/
theorem client_eq (h : FreshCalls key cfg) (sound : Sound cfg) {i j : Client}
    {t u : Thread C R Op Val} (ht : cfg.threads i = some t) (hu : cfg.threads j = some u)
    {k : K} (hk : key t.op = some k) (hk' : key u.op = some k) :
  i = j
  := by
  have same : Event.call i t.ticket t.op = .call j u.ticket u.op :=
    h.event_eq (sound.calling i t ht) (sound.calling j u hu) hk hk'
  exact (Event.call.inj same).1

theorem concat {history : List (Event Client C R Op Val)} {e : Event Client C R Op Val}
    (h : history.Pairwise fun e e' => ∀ k, e.key key = some k → e'.key key ≠ some k)
    (fresh : ∀ k, e.key key = some k → k ∉ keys key history) :
  (history ++ [e]).Pairwise fun e e' => ∀ k, e.key key = some k → e'.key key ≠ some k
  := by
  apply List.pairwise_append.mpr
  use h, List.pairwise_singleton _ _
  intro e₁ he₁ e₂ he₂ k hk hk'
  obtain rfl := List.mem_singleton.mp he₂
  apply fresh k hk'
  apply mem_keys_iff.mpr
  use e₁

theorem of_reaches [DecidableEq Client] [DecidableEq K] {M : Machine C R σ Op Val Env}
    {P : Config Client C R σ Op Val → Turn Client Op Env → Prop} {s : σ}
    (h : M.Reaches P (Config.init s) cfg) (fresh : ∀ cfg l, P cfg l → freshCall key cfg l) :
  FreshCalls key cfg
  := by
  apply h.invariant (FreshCalls key)
  case start => apply List.Pairwise.nil
  case keep =>
    intro cfg l cfg' ih hP hs
    cases hs with
    | @call i op _ =>
        apply FreshCalls.concat ih
        intro k hk
        have hfresh := fresh _ _ hP
        rw [Event.key_call] at hk
        rw [freshCall, hk] at hfresh
        simpa using hfresh
    | act _ _ | ret _ =>
        apply FreshCalls.concat ih
        rintro k ⟨⟩
    | env _ => exact ih

end FreshCalls

end Atomic
