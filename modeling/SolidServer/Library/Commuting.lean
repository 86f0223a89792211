import SolidServer.Library.Observation

/-!
# Commands that commute

Where every operation has a script, the list of the commands it issues that change the state,
whatever they are answered, and any two commands of the scripts commute, the interleaving
does not matter: when all operations have returned, the state is the one that the operations
executed alone leave, one after another, in every order (`Machine.final_of_commuting`).
-/

namespace Atomic

variable {Client C : Type} {R : C → Type} {σ Op Val Env : Type}

/-- What the commands do to the state, which of them change it, and the commands of each
operation that do. -/
structure Script (C σ Op : Type) where
  effect : C → σ → σ
  changes : C → Bool
  commands : Op → List C

namespace Machine

variable (M : Machine C R σ Op Val Env) (S : Script C σ Op)

/-- The commands of the program that change the state are those of the list, in order,
whatever answers they get. -/
def Scripted : List C → Prog C R Val → Prop
  | l, .ret _ => l = []
  | l, .act c next =>
      if S.changes c then ∃ l', l = c :: l' ∧ ∀ r, M.Answers c r → Scripted l' (next r)
      else ∀ r, M.Answers c r → Scripted l (next r)

/-- The machine executes the commands with their effects, and its operations are scripted. -/
structure Obeys (M : Machine C R σ Op Val Env) (S : Script C σ Op) : Prop where
  exec : ∀ c s r t, M.exec c s = some (r, t) → t = S.effect c s
  still : ∀ c s, S.changes c = false → S.effect c s = s
  scripted : ∀ op, M.Scripted S (S.commands op) (M.impl op)

end Machine

namespace Script

variable (S : Script C σ Op)

/-- The state after commands are executed one after another. -/
def play (l : List C) (s : σ) : σ :=
  l.foldl (fun s c => S.effect c s) s

theorem play_append (l l' : List C) (s : σ) :
  S.play (l ++ l') s = S.play l' (S.play l s)
  := List.foldl_append

/-- The ticket and the command of an event that changes the state. -/
def change : Event Client C R Op Val → Option (ℕ × C)
  | .act n _ c _ => if S.changes c then some (n, c) else none
  | _ => none

/-- The commands of a history that change the state, with their tickets. -/
def changesOf (history : List (Event Client C R Op Val)) : List (ℕ × C) :=
  history.filterMap S.change

theorem changesOf_concat (history : List (Event Client C R Op Val))
    (e : Event Client C R Op Val) :
  S.changesOf (history ++ [e]) = S.changesOf history ++ (S.change e).toList
  := by
  rw [changesOf, List.filterMap_append, List.filterMap_cons]
  cases S.change e <;> rfl

/-- The commands of one operation in a history that change the state. -/
theorem changesOf_ticket (history : List (Event Client C R Op Val)) (n : ℕ) :
  ((S.changesOf history).filter fun x => x.1 = n).map Prod.snd
    = ((answersOf n history).map Sigma.fst).filter S.changes
  := by
  rw [changesOf, answersOf, List.filter_filterMap, List.map_filterMap, List.map_filterMap,
    List.filter_filterMap]
  congr 1
  funext e
  cases e with
  | call i m op | ret m op v =>
      by_cases hm : m = n <;> simp [change, Event.answerOf, Event.answer, hm]
  | act m op c r =>
      by_cases hc : S.changes c = true <;> by_cases hm : m = n <;>
        simp [change, Event.answerOf, Event.answer, hc, hm, Option.filter]

end Script

/-- A list of pairs is put together, up to order, from what it has for each of the first
components. -/
theorem perm_flatMap_filter {α : Type} {ns : List ℕ} (hns : ns.Nodup) {l : List (ℕ × α)}
    (h : ∀ x ∈ l, x.1 ∈ ns) :
  (ns.flatMap fun n => l.filter fun x => x.1 = n).Perm l
  := by
  induction l with
  | nil =>
      simp
  | cons x l ih =>
      obtain ⟨before, behind, rfl⟩ := List.append_of_mem (h x List.mem_cons_self)
      have rest := ih fun y hy => h y (List.mem_cons_of_mem x hy)
      rw [List.nodup_middle, List.nodup_cons, List.mem_append, not_or] at hns
      have others : ∀ ms : List ℕ, x.1 ∉ ms →
          (ms.flatMap fun n => (x :: l).filter fun y => y.1 = n)
            = ms.flatMap fun n => l.filter fun y => y.1 = n := by
        intro ms hms
        apply List.flatMap_congr
        intro n hn
        apply List.filter_cons_of_neg
        intro hx
        apply hms
        rw [of_decide_eq_true hx]
        apply hn
      rw [List.flatMap_append, List.flatMap_cons, others before hns.1.1, others behind hns.1.2,
        List.filter_cons_of_pos (by simp)]
      rw [List.flatMap_append, List.flatMap_cons] at rest
      rw [List.cons_append]
      apply List.perm_middle.trans (rest.cons x)

namespace Machine

variable {M : Machine C R σ Op Val Env} {S : Script C σ Op}

/-- A scripted program has issued the first commands of its script, and is left with the
others. -/
theorem Scripted.of_follows {p p' : Prog C R Val} {l : List C} {os : List (Σ c, R c)}
    (h : M.Scripted S l p) (hfollows : Follows p os p')
    (possible : ∀ o ∈ os, M.Answers o.1 o.2) :
  ∃ l', l = (os.map Sigma.fst).filter S.changes ++ l' ∧ M.Scripted S l' p'
  := by
  induction hfollows generalizing l with
  | refl => exact ⟨l, rfl, h⟩
  | @act c next r os p' _ ih =>
      have answer := possible ⟨c, r⟩ List.mem_cons_self
      have rest := fun o ho => possible o (List.mem_cons_of_mem _ ho)
      rw [Scripted] at h
      rw [List.map_cons]
      split at h
      · obtain ⟨l', rfl, hnext⟩ := h
        obtain ⟨left, rfl, hleft⟩ := ih (hnext r answer) rest
        use left
        rw [List.filter_cons_of_pos ‹_›]
        exact ⟨rfl, hleft⟩
      · obtain ⟨left, rfl, hleft⟩ := ih (h r answer) rest
        use left
        rw [List.filter_cons_of_neg ‹_›]
        exact ⟨rfl, hleft⟩

/-- A scripted program executed alone plays its script. -/
theorem Scripted.run {exec : (c : C) → σ → R c × σ} (total : ∀ c s, M.exec c s = some (exec c s))
    (obeys : M.Obeys S) {p : Prog C R Val} {l : List C} (h : M.Scripted S l p) (s : σ) :
  (p.run exec s).2 = S.play l s
  := by
  induction p generalizing l s with
  | ret a =>
      obtain rfl : l = [] := h
      rfl
  | act c next ih =>
      have answer : M.Answers c (exec c s).1 := ⟨s, (exec c s).2, total c s⟩
      have effect := obeys.exec c s _ _ (total c s)
      rw [Scripted] at h
      rw [Prog.run_act]
      split at h
      · obtain ⟨l', rfl, hnext⟩ := h
        rw [ih _ (hnext _ answer), effect]
        rfl
      · rw [ih _ (h _ answer), effect, obeys.still c s (Bool.eq_false_iff.mpr ‹_›)]

variable [DecidableEq Client]
  {P : Config Client C R σ Op Val → Turn Client Op Env → Prop}
  {cfg : Config Client C R σ Op Val} {s : σ}

/-- The answers in a history are answers of the machine. -/
theorem answers_of_reaches (h : M.Reaches P (Config.init s) cfg) {n : ℕ} {op : Op} {c : C}
    {r : R c} (he : .act n op c r ∈ cfg.history) :
  M.Answers c r
  := by
  obtain ⟨l₁, l₂, hl⟩ := List.append_of_mem he
  obtain ⟨cfg₁, t, -, -, hexec⟩ := h.exec_of_history hl
  exact ⟨_, t, hexec⟩

/-- An operation that has returned has issued the commands of its script. -/
theorem commands_of_returned (obeys : M.Obeys S) (h : M.Reaches P (Config.init s) cfg) {n : ℕ}
    {op : Op} {v : Val} (hret : .ret n op v ∈ cfg.history) :
  ((answersOf n cfg.history).map Sigma.fst).filter S.changes = S.commands op
  := by
  have follows := (Followed.of_reaches h).returned n op v hret
  obtain ⟨left, hleft, rfl⟩ := (obeys.scripted op).of_follows follows fun o ho => by
    obtain ⟨op', he⟩ := mem_answersOf_iff.mp ho
    apply answers_of_reaches h he
  rw [hleft, List.append_nil]

/-- An operation issues commands of its script only. -/
theorem mem_commands (obeys : M.Obeys S) (h : M.Reaches P (Config.init s) cfg) {n : ℕ} {op : Op}
    {c : C} {r : R c} (he : .act n op c r ∈ cfg.history) (hc : S.changes c = true) :
  c ∈ S.commands op
  := by
  have sound := Sound.of_reaches h
  have issued : c ∈ ((answersOf n cfg.history).map Sigma.fst).filter S.changes := by
    apply List.mem_filter.mpr
    exact ⟨List.mem_map_of_mem (f := Sigma.fst) (mem_answersOf_iff.mpr ⟨op, he⟩), hc⟩
  obtain ⟨i, hi⟩ := sound.opened _ he
  rcases sound.settled i n op hi with ⟨v, hv⟩ | ⟨t, ht, rfl⟩
  · rwa [commands_of_returned obeys h hv] at issued
  · obtain ⟨hop, -⟩ := sound.running i t ht _ hi rfl
    obtain rfl : op = t.op := hop
    have follows := (Followed.of_reaches h).running i t ht
    obtain ⟨left, hleft, -⟩ := (obeys.scripted t.op).of_follows follows fun o ho => by
      obtain ⟨op', he⟩ := mem_answersOf_iff.mp ho
      apply answers_of_reaches h he
    rw [hleft]
    apply List.mem_append_left left issued

/-- The state is what the commands in the history that change it make of the first one. -/
theorem shared_eq_play [IsEmpty Env] (obeys : M.Obeys S)
    (h : M.Reaches P (Config.init s) cfg) :
  cfg.shared = S.play ((S.changesOf cfg.history).map Prod.snd) s
  := by
  apply h.invariant fun cfg => cfg.shared = S.play ((S.changesOf cfg.history).map Prod.snd) s
  case start => rfl
  case keep =>
    intro cfg l cfg' ih _ hs
    cases hs with
    | call _ | ret _ =>
        simp only [Config.called, Config.returned, S.changesOf_concat, Script.change]
        simpa using ih
    | env _ => exact isEmptyElim (α := Env) ‹Env›
    | @act _ n op c _ _ t run hexec =>
        have effect := obeys.exec c _ _ t hexec
        simp only [Config.acted, S.changesOf_concat, Script.change]
        rw [effect, ih, List.map_append, S.play_append]
        by_cases hc : S.changes c = true
        · simp [hc, Script.play]
        · simp [hc, Script.play, obeys.still c _ (Bool.eq_false_iff.mpr hc)]

/-- The commands in the history that change the state are, up to order, those of the scripts
of the operations, if all of them have returned. -/
theorem changesOf_perm (obeys : M.Obeys S) (h : M.Reaches P (Config.init s) cfg)
    (quiescent : cfg.Quiescent) {order : List (ℕ × Op)}
    (nodup : (order.map Prod.fst).Nodup)
    (all : ∀ n op, (n, op) ∈ order ↔ ∃ i, .call i n op ∈ cfg.history) :
  ((S.changesOf cfg.history).map Prod.snd).Perm (order.flatMap fun x => S.commands x.2)
  := by
  have sound := Sound.of_reaches h
  have script : ∀ x ∈ order,
      ((S.changesOf cfg.history).filter fun y => y.1 = x.1).map Prod.snd = S.commands x.2 := by
    intro x hx
    obtain ⟨i, hi⟩ := (all x.1 x.2).mp hx
    obtain ⟨v, hv⟩ := sound.returned_of_quiescent quiescent hi
    rw [S.changesOf_ticket]
    apply commands_of_returned obeys h hv
  have tickets : ∀ y ∈ S.changesOf cfg.history, y.1 ∈ order.map Prod.fst := by
    intro y hy
    obtain ⟨e, he, hy⟩ := List.mem_filterMap.mp hy
    cases e with
    | call _ _ _ | ret _ _ _ => cases hy
    | act n op c r =>
        obtain ⟨-, hy⟩ := Option.ite_none_right_eq_some.mp hy
        obtain rfl := Option.some.inj hy
        apply List.mem_map.mpr
        use (n, op)
        refine ⟨(all n op).mpr (sound.opened _ he), rfl⟩
  have grouped := (perm_flatMap_filter nodup tickets).map Prod.snd
  rw [List.map_flatMap, List.flatMap_map] at grouped
  rw [List.flatMap_congr script] at grouped
  apply grouped.symm

/-- If any two commands of the scripts commute and all operations have returned, the state is
the one that they leave when they are executed one after another, in every order. -/
theorem final_of_commuting [IsEmpty Env] {exec : (c : C) → σ → R c × σ}
    (total : ∀ c s, M.exec c s = some (exec c s)) (obeys : M.Obeys S)
    (h : M.Reaches P (Config.init s) cfg) (quiescent : cfg.Quiescent)
    {order : List (ℕ × Op)} (nodup : (order.map Prod.fst).Nodup)
    (all : ∀ n op, (n, op) ∈ order ↔ ∃ i, .call i n op ∈ cfg.history)
    (commute : ∀ x ∈ order, ∀ y ∈ order, ∀ c ∈ S.commands x.2, ∀ d ∈ S.commands y.2,
      ∀ t, S.effect c (S.effect d t) = S.effect d (S.effect c t)) :
  final (fun op s => (M.impl op).run exec s) order s = cfg.shared
  := by
  have final_eq : ∀ (order : List (ℕ × Op)) (s : σ),
      final (fun op s => (M.impl op).run exec s) order s
        = S.play (order.flatMap fun x => S.commands x.2) s := by
    intro order
    induction order with
    | nil => exact fun _ => rfl
    | cons x order ih =>
        intro s
        rw [List.flatMap_cons, S.play_append, ← (obeys.scripted x.2).run total obeys s]
        apply ih
  have perm := changesOf_perm obeys h quiescent nodup all
  rw [final_eq, shared_eq_play obeys h, Script.play, Script.play]
  symm
  apply perm.foldl_eq'
  intro c hc d hd s
  obtain ⟨x, hx, hc⟩ := List.mem_flatMap.mp (perm.mem_iff.mp hc)
  obtain ⟨y, hy, hd⟩ := List.mem_flatMap.mp (perm.mem_iff.mp hd)
  apply commute y hy x hx d hd c hc s

end Machine

end Atomic
