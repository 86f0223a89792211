import SolidServer.Library.Interleaving

/-!
# Moments of an operation

`p.Ensures later own x post` says what is known when the program `p` returns: it is started in
the world `x`, the world moves on by `later` before every command, and a command `c` that is
answered by `r` changes it as `own c r` says.  For an operation of a machine the world is the
configuration, other clients and the environment move it on, and everything that its program
ensures from the call on is true of its return (`Machine.ensured_of_reaches`).  A moment of an
operation is a configuration of the run in which the operation is running.
-/

namespace Atomic

variable {C : Type} {R : C → Type} {α β X : Type}

/-- What is known of the value that a program returns and of the world after its last command,
if the world moves on by `later` between its commands. -/
def Prog.Ensures (later : X → X → Prop) (own : (c : C) → R c → X → X → Prop) :
    Prog C R α → X → (α → X → Prop) → Prop
  | .ret a, x, post => post a x
  | .act c next, x, post =>
      ∀ x' r x'', later x x' → own c r x' x'' → (next r).Ensures later own x'' post

namespace Prog.Ensures

variable {later : X → X → Prop} {own : (c : C) → R c → X → X → Prop} {p : Prog C R α} {x : X}
  {post : α → X → Prop}

theorem mono (h : p.Ensures later own x post) {post' : α → X → Prop}
    (hpost : ∀ a x, post a x → post' a x) :
  p.Ensures later own x post'
  := by
  induction p generalizing x with
  | ret a => apply hpost a x h
  | act c next ih => exact fun x' r x'' hlater hown => ih r (h x' r x'' hlater hown)

/-- What is run next begins in the world that the first program has left. -/
theorem bind {f : α → Prog C R β} {post' : β → X → Prop} (h : p.Ensures later own x post)
    (hf : ∀ a x, post a x → (f a).Ensures later own x post') :
  (p >>= f).Ensures later own x post'
  := by
  induction p generalizing x with
  | ret a => apply hf a x h
  | act c next ih => exact fun x' r x'' hlater hown => ih r (h x' r x'' hlater hown)

/-- What holds of the world and is kept by the commands and between them holds at the end. -/
theorem of_stable {I : X → Prop} (hlater : ∀ x x', I x → later x x' → I x')
    (hown : ∀ c r x x', I x → own c r x x' → I x') (p : Prog C R α) (hx : I x) :
  p.Ensures later own x fun _ => I
  := by
  induction p generalizing x with
  | ret a => apply hx
  | act c next ih =>
      exact fun x' r x'' hl ho => ih r (hown c r x' x'' (hlater x x' hx hl) ho)

/-- A program that runs alone, and never gets stuck, returns what it ensures. -/
theorem runOption {exec : (c : C) → X → Option (R c × X)}
    (h : p.Ensures Eq (fun c r x x' => exec c x = some (r, x')) x post)
    (total : ∀ c x, ∃ r x', exec c x = some (r, x')) :
  ∃ a x', p.runOption exec x = some (a, x') ∧ post a x'
  := by
  induction p generalizing x with
  | ret a => exact ⟨a, x, rfl, h⟩
  | act c next ih =>
      obtain ⟨r, x', hexec⟩ := total c x
      obtain ⟨a, x'', hrun, hpost⟩ := ih r (h x r x' rfl hexec)
      refine ⟨a, x'', ?_, hpost⟩
      rw [Prog.runOption, hexec]
      apply hrun

end Prog.Ensures

/-! ### Operations of a machine -/

variable {Client σ Op Val Env : Type} [DecidableEq Client]

namespace Machine

variable (M : Machine C R σ Op Val Env)
  (P : Config Client C R σ Op Val → Turn Client Op Env → Prop)

/-- The operation with ticket `n` issues the command `c`, which is answered by `r`. -/
def Acts (n : ℕ) (op : Op) (c : C) (r : R c) (cfg cfg' : Config Client C R σ Op Val) : Prop :=
  ∃ i next s, cfg.threads i = some ⟨n, op, .act c next⟩ ∧ P cfg (.act i) ∧
    M.exec c cfg.shared = some (r, s) ∧
    cfg' = cfg.acted i ⟨n, op, .act c next⟩ c r s (next r)

/-- In the run from `s` to `cfg`, the operation with ticket `n` is running in `cfg₁`. -/
structure Moment (s : σ) (cfg : Config Client C R σ Op Val) (n : ℕ) (op : Op)
    (cfg₁ : Config Client C R σ Op Val) : Prop where
  reached : M.Reaches P (Config.init s) cfg₁
  later : M.Reaches P cfg₁ cfg
  running : ∃ i p, cfg₁.threads i = some ⟨n, op, p⟩

variable {M P} {s : σ} {n : ℕ} {op : Op} {c : C} {r : R c}
  {cfg cfg' cfg₁ : Config Client C R σ Op Val}

theorem Acts.reaches (h : M.Acts P n op c r cfg cfg') :
  M.Reaches P cfg cfg'
  := by
  obtain ⟨i, next, s, run, allowed, hexec, rfl⟩ := h
  apply Reaches.refl.step allowed (.act run hexec)

theorem Acts.moment (h : M.Acts P n op c r cfg cfg') (reached : M.Reaches P (Config.init s) cfg) :
  M.Moment P s cfg' n op cfg
  := by
  refine ⟨reached, h.reaches, ?_⟩
  obtain ⟨i, next, -, run, -⟩ := h
  exact ⟨i, _, run⟩

theorem Moment.mono (h : M.Moment P s cfg n op cfg₁) (hlater : M.Reaches P cfg cfg') :
  M.Moment P s cfg' n op cfg₁
  := ⟨h.reached, h.later.trans hlater, h.running⟩

/-- What the program of every operation ensures from its call on is true when it has executed its
last command, which is a moment of the operation. -/
theorem ensured_of_reaches (post : ℕ → Op → Val → Config Client C R σ Op Val → Prop)
    (h : M.Reaches P (Config.init s) cfg)
    (ensures : ∀ (cfg₀ : Config Client C R σ Op Val) i op,
      M.Reaches P (Config.init s) (cfg₀.called i op (M.impl op)) →
        (M.impl op).Ensures (M.Reaches P) (M.Acts P cfg₀.tickets op)
          (cfg₀.called i op (M.impl op)) (post cfg₀.tickets op))
    {v : Val} (hret : .ret n op v ∈ cfg.history) :
  ∃ cfg₁, M.Moment P s cfg n op cfg₁ ∧ post n op v cfg₁
  := by
  -- what is left of a program ensures the same from where its last command was executed
  have key : (∀ i t, cfg.threads i = some t → ∃ cfg₁, M.Moment P s cfg t.ticket t.op cfg₁ ∧
      t.rest.Ensures (M.Reaches P) (M.Acts P t.ticket t.op) cfg₁ (post t.ticket t.op)) ∧
      ∀ n op v, .ret n op v ∈ cfg.history →
        ∃ cfg₁, M.Moment P s cfg n op cfg₁ ∧ post n op v cfg₁ := by
    clear hret
    induction h with
    | refl =>
        constructor
        · rintro i t ⟨⟩
        · rintro n op v ⟨⟩
    | @step cfg cfg' l before allowed hs ih =>
        obtain ⟨running, returned⟩ := ih
        have one : M.Reaches P cfg cfg' := Reaches.refl.step allowed hs
        have running' : ∀ i t, cfg.threads i = some t → ∃ cfg₁,
            M.Moment P s cfg' t.ticket t.op cfg₁ ∧
              t.rest.Ensures (M.Reaches P) (M.Acts P t.ticket t.op) cfg₁ (post t.ticket t.op) := by
          intro i t ht
          obtain ⟨cfg₁, moment, hrest⟩ := running i t ht
          exact ⟨cfg₁, moment.mono one, hrest⟩
        have returned' : ∀ n op v, .ret n op v ∈ cfg.history →
            ∃ cfg₁, M.Moment P s cfg' n op cfg₁ ∧ post n op v cfg₁ := by
          intro n op v hv
          obtain ⟨cfg₁, moment, hpost⟩ := returned n op v hv
          exact ⟨cfg₁, moment.mono one, hpost⟩
        have reached := before.step allowed hs
        cases hs with
        | @call i op idle =>
            constructor
            · intro j t ht
              rcases of_update_eq_some ht with ⟨-, ht⟩ | ⟨-, ht⟩
              · obtain rfl := Option.some.inj ht
                exact ⟨_, ⟨reached, .refl, i, _, Function.update_self ..⟩, ensures cfg i op reached⟩
              · apply running' j t ht
            · intro n op v hv
              apply returned' n op v
              simpa [Config.called] using hv
        | @act i n op c next r s run hexec =>
            constructor
            · intro j t ht
              rcases of_update_eq_some ht with ⟨-, ht⟩ | ⟨-, ht⟩
              · obtain rfl := Option.some.inj ht
                obtain ⟨cfg₁, moment, hrest⟩ := running i _ run
                exact ⟨_, ⟨reached, .refl, i, _, Function.update_self ..⟩,
                  hrest cfg r _ moment.later ⟨i, next, s, run, allowed, hexec, rfl⟩⟩
              · apply running' j t ht
            · intro n op v hv
              apply returned' n op v
              simpa [Config.acted] using hv
        | @ret i n op v run =>
            constructor
            · intro j t ht
              rcases of_update_eq_some ht with ⟨-, ht⟩ | ⟨-, ht⟩
              · cases ht
              · apply running' j t ht
            · intro n' op' v' hv
              rcases List.mem_append.mp hv with hv | hv
              · apply returned' n' op' v' hv
              · obtain ⟨rfl, rfl, rfl⟩ := Event.ret.inj (List.mem_singleton.mp hv)
                apply running' i _ run
        | env hexec => exact ⟨running', returned'⟩
  apply key.2 n op v hret

end Machine

end Atomic
