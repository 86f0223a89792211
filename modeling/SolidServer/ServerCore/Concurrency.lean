import SolidServer.Library.Linearization
import SolidServer.ServerCore.Ancestors
import SolidServer.ServerCore.Handlers

/-!
# Concurrent store operations

Clients run `get`, `exists_`, `put` and `delete` concurrently, each lock section one atomic
step.  The key sections of an operation are all of its sections except the walk over the
ancestors: every operation has exactly one, and its answer is what the operation returns.
The walk never touches a key that does not end with a slash, a document key, so the
creations and deletions that the sections on such a key report can be counted against each
other.
-/

open Text Http Atomic

namespace ServerCore

/-- The store operations. -/
inductive StoreOp where
  | get (path : Str)
  | exists_ (path : Str)
  | put (path : Str) (body : List UInt8) (contentType : Str)
  | delete (path : Str)
deriving DecidableEq

/-- What the store operations return. -/
inductive StoreVal where
  | entry (found : Option Entry)
  | flag (b : Bool)
deriving DecidableEq

namespace StoreOp

/-- The program of an operation. -/
def impl : StoreOp → StoreProg StoreVal
  | get path => do return .entry (← LdpStore.get path)
  | exists_ path => do return .flag (← LdpStore.exists_ path)
  | put path body contentType => do return .flag (← LdpStore.put path body contentType)
  | delete path => do return .flag (← LdpStore.delete path)

/-- The key of an operation. -/
def key : StoreOp → Str
  | get path | exists_ path | put path _ _ | delete path => LdpStore.key path

/-- The key section of an operation. -/
def keySection : StoreOp → StoreCmd
  | get path => .get (LdpStore.key path)
  | exists_ path => .containsKey (LdpStore.key path)
  | put path body contentType =>
      .insert (LdpStore.key path) ⟨body, contentType, endsWith (LdpStore.key path) '/'⟩
  | delete path => .remove (LdpStore.key path)

/-- What an operation returns when its key section is answered. -/
def value : (op : StoreOp) → op.keySection.Answer → StoreVal
  | get _, found => .entry found
  | exists_ _, b | put _ _ _, b | delete _, b => .flag b

end StoreOp

/-- The key sections: all but the walk over the ancestors. -/
def StoreCmd.isKeySection : StoreCmd → Bool
  | .ensureAncestors _ => false
  | _ => true

/-- Clients running store operations concurrently. -/
def storeMachine : Machine StoreCmd StoreCmd.Answer LdpStore StoreOp StoreVal Empty where
  impl := StoreOp.impl
  exec c s := some (c.exec s)
  env := nofun

theorem storeMachine_exec {c : StoreCmd} {s t : LdpStore} {r : c.Answer}
    (h : storeMachine.exec c s = some (r, t)) :
  r = (c.exec s).1 ∧ t = (c.exec s).2
  := by
  have key : c.exec s = (r, t) := Option.some.inj h
  rw [key]
  exact ⟨rfl, rfl⟩

theorem onePoint_impl (op : StoreOp) :
  (storeMachine.impl op).OnePoint StoreCmd.isKeySection
  := by
  cases op <;> intro r
  case put => intro r'; trivial
  all_goals trivial

/-- An operation issues its key section and the walk over the ancestors of its key. -/
theorem issues_impl (op : StoreOp) :
  (storeMachine.impl op).Issues fun c => c = op.keySection ∨ c = .ensureAncestors op.key
  := by
  cases op with
  | get path => exact ⟨.inl rfl, fun _ => trivial⟩
  | exists_ path => exact ⟨.inl rfl, fun _ => trivial⟩
  | put path body ct => exact ⟨.inr rfl, fun _ => ⟨.inl rfl, fun _ => trivial⟩⟩
  | delete path => exact ⟨.inl rfl, fun _ => trivial⟩

/-- An operation that has returned has issued its key section, and no other, and returned
its answer. -/
theorem exists_answer_of_follows {op : StoreOp} {l : List (Σ c, StoreCmd.Answer c)}
    {v : StoreVal} (h : Follows (storeMachine.impl op) l (.ret v)) :
  ∃ r, v = op.value r ∧ ⟨op.keySection, r⟩ ∈ l ∧
    ∀ o ∈ l, o.1.isKeySection = true → o = ⟨op.keySection, r⟩
  := by
  have single : ∀ {c : StoreCmd} {f : c.Answer → StoreVal} {l},
      Follows (.act c fun r => .ret (f r)) l (.ret v) → ∃ r, l = [⟨c, r⟩] ∧ v = f r := by
    intro c f l h
    obtain ⟨r, l, rfl, hret⟩ := h.act_ret
    obtain ⟨rfl, hv⟩ := hret.ret_eq
    use r, rfl, Prog.ret.inj hv
  cases op with
  | put path body ct =>
      obtain ⟨u, l, rfl, hinsert⟩ := Follows.act_ret h
      obtain ⟨r, rfl, hv⟩ := single hinsert
      use r, hv, List.mem_cons_of_mem _ (List.mem_singleton_self _)
      intro o ho hkey
      rcases List.mem_cons.mp ho with rfl | ho
      · cases hkey
      · apply List.mem_singleton.mp ho
  | get path | exists_ path | delete path =>
      obtain ⟨r, rfl, hv⟩ := single h
      use r, hv, List.mem_singleton_self _
      intro o ho _
      apply List.mem_singleton.mp ho

variable {Client : Type}

/-- Events of concurrent store operations. -/
abbrev StoreEvent (Client : Type) := Event Client StoreCmd StoreCmd.Answer StoreOp StoreVal

/-- Configurations of concurrent store operations. -/
abbrev StoreConfig (Client : Type) :=
  Config Client StoreCmd StoreCmd.Answer LdpStore StoreOp StoreVal

/-- An operation that returned has had its key section answered, once, with what it
returned. -/
theorem exists_keySection [DecidableEq Client] {cfg : StoreConfig Client} {s : LdpStore}
    (h : storeMachine.Reachable (Config.init s) cfg) {n : ℕ} {op : StoreOp} {v : StoreVal}
    (hv : .ret n op v ∈ cfg.history) :
  ∃ r, v = op.value r ∧ .act n op op.keySection r ∈ cfg.history ∧
    ∀ op' c r', .act n op' c r' ∈ cfg.history → c.isKeySection = true →
      (⟨c, r'⟩ : Σ c, StoreCmd.Answer c) = ⟨op.keySection, r⟩
  := by
  obtain ⟨r, hval, hr, hunique⟩ :=
    exists_answer_of_follows ((Followed.of_reaches h).returned n op v hv)
  obtain ⟨op', he⟩ := mem_answersOf_iff.mp hr
  obtain rfl : op' = op := (Sound.of_reaches h).op_eq he hv rfl
  use r, hval, he
  intro op'' c r' he' hc
  apply hunique _ (mem_answersOf_iff.mpr ⟨op'', he'⟩) hc

end ServerCore
