import SolidServer.ServerCore.Concurrency

/-!
# Creations and deletions of documents

The walk over the ancestors of any key leaves document keys alone, so an insertion that
reports a creation and a removal that reports a deletion alternate on every document key,
in whatever order the lock sections of concurrent clients are executed.
-/

open Text Http Atomic

namespace ServerCore

/-- The lock section inserted the key, and reported that it is new. -/
def creates (k : Str) : (Σ c, StoreCmd.Answer c) → Bool
  | ⟨.insert k' _, created⟩ => k' == k && created
  | _ => false

/-- The lock section removed the key, and reported that it was there. -/
def removes (k : Str) : (Σ c, StoreCmd.Answer c) → Bool
  | ⟨.remove k', existed⟩ => k' == k && existed
  | _ => false

/-- Whether a key is stored, as a number. -/
def stored (k : Str) (s : LdpStore) : ℤ :=
  if k ∈ s then 1 else 0

theorem stored_congr {k : Str} {s t : LdpStore} (h : s.lookup k = t.lookup k) :
  stored k s = stored k t
  := by
  simp only [stored, ← LdpStore.isSome_lookup_iff, h]

/-- What one lock section reports about a document key is the change of the key. -/
theorem stored_exec {k : Str} (hk : endsWith k '/' = false) (c : StoreCmd) (s : LdpStore) :
  stored k (c.exec s).2 = stored k s
    + (if creates k ⟨c, (c.exec s).1⟩ then 1 else 0)
    - (if removes k ⟨c, (c.exec s).1⟩ then 1 else 0)
  := by
  cases c with
  | get k' => simp [StoreCmd.exec, creates, removes]
  | containsKey k' => simp [StoreCmd.exec, creates, removes]
  | ensureAncestors k' =>
      simp only [StoreCmd.exec, creates, removes]
      simpa using stored_congr (LdpStore.lookup_ensureAncestors_document s k' hk)
  | insert k' e =>
      simp only [StoreCmd.exec, creates, removes]
      by_cases hkk : k' = k
      · subst hkk
        have after : k' ∈ s.insert k' e := by
          rw [← LdpStore.isSome_lookup_iff, LdpStore.lookup_insert, if_pos rfl]
          rfl
        by_cases hs : k' ∈ s <;> simp [stored, after, hs]
      · have same : (s.insert k' e).lookup k = s.lookup k := by
          rw [LdpStore.lookup_insert, if_neg (Ne.symm hkk)]
        simp [stored_congr same, hkk]
  | remove k' =>
      simp only [StoreCmd.exec, creates, removes]
      by_cases hkk : k' = k
      · subst hkk
        have after : k' ∉ s.erase k' := by
          rw [← LdpStore.lookup_eq_none_iff, LdpStore.lookup_erase, if_pos rfl]
        by_cases hs : k' ∈ s <;> simp [stored, after, hs]
      · have same : (s.erase k').lookup k = s.lookup k := by
          rw [LdpStore.lookup_erase, if_neg (Ne.symm hkk)]
        simp [stored_congr same, hkk]

/-- What a run of lock sections reports about a document key is the change of the key. -/
theorem stored_replays {k : Str} (hk : endsWith k '/' = false)
    {l : List (Σ c, StoreCmd.Answer c)} {s t : LdpStore}
    (h : Replays storeMachine.exec l s t) :
  stored k t = stored k s + l.countP (creates k) - l.countP (removes k)
  := by
  induction l generalizing s with
  | nil =>
      obtain rfl := h
      simp
  | cons o l ih =>
      obtain ⟨c, r⟩ := o
      obtain ⟨s', hs', h⟩ := h
      obtain ⟨rfl, rfl⟩ := storeMachine_exec hs'
      rw [ih h, stored_exec hk, List.countP_cons, List.countP_cons]
      push_cast
      split <;> split <;> omega

/-- A document key that was inserted and not removed is stored. -/
theorem mem_of_replays {k : Str} (hk : endsWith k '/' = false)
    {l : List (Σ c, StoreCmd.Answer c)} {s t : LdpStore}
    (h : Replays storeMachine.exec l s t) (hremoved : ∀ r, ⟨.remove k, r⟩ ∉ l)
    (hinserted : k ∈ s ∨ ∃ e r, ⟨.insert k e, r⟩ ∈ l) :
  k ∈ t
  := by
  induction l generalizing s with
  | nil =>
      obtain rfl := h
      rcases hinserted with hs | ⟨e, r, hr⟩
      · apply hs
      · cases hr
  | cons o l ih =>
      obtain ⟨c, r⟩ := o
      obtain ⟨s', hs', h⟩ := h
      obtain ⟨rfl, rfl⟩ := storeMachine_exec hs'
      apply ih h fun r hr => hremoved r (List.mem_cons_of_mem _ hr)
      by_cases hinsert : ∃ e, c = .insert k e
      · obtain ⟨e, rfl⟩ := hinsert
        left
        change k ∈ s.insert k e
        rw [← LdpStore.isSome_lookup_iff, LdpStore.lookup_insert, if_pos rfl]
        rfl
      · rcases hinserted with hs | ⟨e, r, hr⟩
        · left
          rw [← LdpStore.isSome_lookup_iff] at hs ⊢
          cases c with
          | get k' => apply hs
          | containsKey k' => apply hs
          | ensureAncestors k' =>
              change ((s.ensureAncestors k').lookup k).isSome
              rw [LdpStore.lookup_ensureAncestors_document s k' hk]
              apply hs
          | insert k' e =>
              change ((s.insert k' e).lookup k).isSome
              rw [LdpStore.lookup_insert]
              split
              · rfl
              · apply hs
          | remove k' =>
              change ((s.erase k').lookup k).isSome
              rw [LdpStore.lookup_erase, if_neg]
              · apply hs
              · rintro rfl
                apply hremoved _ List.mem_cons_self
        · right
          rcases List.mem_cons.mp hr with hr | hr
          · apply absurd _ hinsert
            use e, (Sigma.mk.inj hr).1.symm
          · use e, r, hr

theorem insert_answer_inj {k k' : Str} {e e' : Entry} {r r' : Bool}
    (h : (⟨.insert k e, r⟩ : Σ c, StoreCmd.Answer c) = ⟨.insert k' e', r'⟩) :
  r = r'
  := by
  cases h
  rfl

section

variable {Client : Type}

/-- The lock section of an event created the key. -/
def createsEvent (k : Str) (e : StoreEvent Client) : Bool :=
  e.answer.any (creates k)

theorem countP_answers (k : Str) (history : List (StoreEvent Client)) :
  (answers history).countP (creates k) = history.countP (createsEvent k)
  := by
  rw [answers, List.countP_filterMap]
  congr 1
  funext e
  rw [createsEvent]
  cases e.answer <;> rfl

theorem createsEvent_iff {k : Str} {e : StoreEvent Client} :
  createsEvent k e = true ↔ ∃ n op entry, e = .act n op (.insert k entry) true
  := by
  constructor
  · intro h
    match e with
    | .act n op (.insert k' entry) created =>
        simp only [createsEvent, Event.answer, Option.any_some, creates, Bool.and_eq_true,
          beq_iff_eq] at h
        obtain ⟨rfl, rfl⟩ := h
        use n, op, entry
  · rintro ⟨n, op, entry, rfl⟩
    simp [createsEvent, Event.answer, creates]

end

variable {Client : Type} [DecidableEq Client] {cfg : StoreConfig Client} {s : LdpStore}
  {k : Str}

/-- Without deletions of a key, no lock section removes it. -/
theorem not_removed (h : storeMachine.Reachable (Config.init s) cfg)
    (hdelete : ∀ i n path, .call i n (.delete path) ∈ cfg.history → LdpStore.key path ≠ k)
    (r : Bool) :
  ⟨.remove k, r⟩ ∉ answers cfg.history
  := by
  intro hr
  obtain ⟨e, he, heo⟩ := List.mem_filterMap.mp hr
  match e with
  | .act n op c r' =>
      obtain ⟨rfl, -⟩ := Sigma.mk.inj (Option.some.inj heo)
      obtain ⟨i, hi⟩ := (Sound.of_reaches h).opened _ he
      rcases issued_of_reaches issues_impl h he with hc | hc
      · cases op with
        | delete path =>
            obtain rfl := StoreCmd.remove.inj hc
            apply hdelete i n path hi rfl
        | get _ | exists_ _ | put _ _ _ => cases hc
      · cases hc

/-- A section that inserts a key belongs to a put of that key. -/
theorem put_of_insert (h : storeMachine.Reachable (Config.init s) cfg) {n : ℕ} {op : StoreOp}
    {entry : Entry} {r : Bool} (he : .act n op (.insert k entry) r ∈ cfg.history) :
  ∃ path body ct, op = .put path body ct ∧ LdpStore.key path = k
  := by
  rcases issued_of_reaches issues_impl h he with hc | hc
  · cases op with
    | put path body ct =>
        use path, body, ct, rfl
        apply (StoreCmd.insert.inj hc).1.symm
    | get _ | exists_ _ | delete _ => cases hc
  · cases hc

/-- At every moment the change of a document key that was absent at first is what the lock
sections reported. -/
theorem stored_eq_count (hk : endsWith k '/' = false) (absent : k ∉ s)
    (h : storeMachine.Reachable (Config.init s) cfg) :
  stored k cfg.shared
    = (answers cfg.history).countP (creates k) - (answers cfg.history).countP (removes k)
  := by
  have count := stored_replays hk (replays_of_reaches h)
  rw [count, stored, if_neg absent, zero_add]

/-- A document key that was absent at first, was put and was never deleted has been created
by exactly one event. -/
theorem countP_createsEvent_eq_one (hk : endsWith k '/' = false) (absent : k ∉ s)
    (h : storeMachine.Reachable (Config.init s) cfg)
    (hdelete : ∀ i n path, .call i n (.delete path) ∈ cfg.history → LdpStore.key path ≠ k)
    {n : ℕ} {path : Str} {body : List UInt8} {ct : Str} {v : StoreVal}
    (hput : .ret n (.put path body ct) v ∈ cfg.history) (hpath : LdpStore.key path = k) :
  cfg.history.countP (createsEvent k) = 1
  := by
  subst hpath
  have count := stored_eq_count hk absent h
  have hmem : LdpStore.key path ∈ cfg.shared := by
    obtain ⟨r, -, hinsert, -⟩ := exists_keySection h hput
    apply mem_of_replays hk (replays_of_reaches h) (not_removed h hdelete)
    right
    use ⟨body, ct, endsWith (LdpStore.key path) '/'⟩, r
    exact List.mem_filterMap.mpr ⟨_, hinsert, rfl⟩
  have hzero : (answers cfg.history).countP (removes (LdpStore.key path)) = 0 := by
    apply List.countP_eq_zero.mpr
    intro o ho hremoves
    match o with
    | ⟨.remove k', r⟩ =>
        simp only [removes, Bool.and_eq_true, beq_iff_eq] at hremoves
        obtain ⟨rfl, -⟩ := hremoves
        apply not_removed h hdelete r ho
  rw [stored, if_pos hmem, hzero, countP_answers] at count
  omega

/-- What the calls on a key return is what was counted of their own sections: a put returns
whether it created the key, and a delete whether it removed it. -/
structure Reported (k : Str) (history : List (StoreEvent Client)) : Prop where
  put : ∀ n path body ct v, .ret n (.put path body ct) v ∈ history → LdpStore.key path = k →
    ∃ created : Bool, v = .flag created ∧
      (answersOf n history).countP (creates k) = created.toNat
  delete : ∀ n path v, .ret n (.delete path) v ∈ history → LdpStore.key path = k →
    ∃ existed : Bool, v = .flag existed ∧
      (answersOf n history).countP (removes k) = existed.toNat

theorem Reported.of_reaches (h : storeMachine.Reachable (Config.init s) cfg) (k : Str) :
  Reported k cfg.history
  := by
  have followed := (Followed.of_reaches h).returned
  constructor
  case put =>
    rintro n path body ct v hv rfl
    obtain ⟨_, l, hl, hinsert⟩ := (followed n _ v hv).act_ret
    obtain ⟨created, l', rfl, hend⟩ := hinsert.act_ret
    obtain ⟨rfl, hret⟩ := hend.ret_eq
    use created, Prog.ret.inj hret
    rw [hl]
    cases created <;> simp [creates]
  case delete =>
    rintro n path v hv rfl
    obtain ⟨existed, l, hl, hend⟩ := (followed n _ v hv).act_ret
    obtain ⟨rfl, hret⟩ := hend.ret_eq
    use existed, Prog.ret.inj hret
    rw [hl]
    cases existed <;> simp [removes]

/-- On a document key that is absent at first, at every moment the number of insertions that
reported a creation minus the number of removals that reported a deletion is one if the
key is stored and zero otherwise, and the puts and deletes return what was counted of them.  So
when puts of the key, and no deletions, have run to their end, exactly one of them is answered
with 201 and the others with 204. -/
theorem document_accounting (hk : endsWith k '/' = false) (absent : k ∉ s)
    (h : storeMachine.Reachable (Config.init s) cfg) :
  ((answers cfg.history).countP (creates k) : ℤ) - (answers cfg.history).countP (removes k)
      = (if k ∈ cfg.shared then 1 else 0) ∧
    (cfg.Quiescent →
      (∀ i n path, .call i n (.delete path) ∈ cfg.history → LdpStore.key path ≠ k) →
      (∃ i n path body ct, .call i n (.put path body ct) ∈ cfg.history ∧
        LdpStore.key path = k) →
      ∃ n₀, (∃ path body ct, .ret n₀ (.put path body ct) (.flag true) ∈ cfg.history ∧
          LdpStore.key path = k) ∧
        ∀ n path body ct v, .ret n (.put path body ct) v ∈ cfg.history →
          LdpStore.key path = k → ∃ created, v = .flag created ∧
            putStatus created = if n = n₀ then .created else .noContent) ∧
    Reported k cfg.history
  := by
  refine ⟨(stored_eq_count hk absent h).symm, ?_, Reported.of_reaches h k⟩
  rintro quiescent hdelete ⟨i, n, path, body, ct, hcall, hpath⟩
  have sound := Sound.of_reaches h
  obtain ⟨v, hv⟩ := sound.returned_of_quiescent quiescent hcall
  have one := countP_createsEvent_eq_one hk absent h hdelete hv hpath
  obtain ⟨e₀, he₀⟩ := List.length_eq_one_iff.mp (List.countP_eq_length_filter ▸ one)
  have unique : ∀ e ∈ cfg.history, createsEvent k e = true → e = e₀ := by
    intro e he hcreates
    have := List.mem_filter.mpr ⟨he, hcreates⟩
    rw [he₀] at this
    apply List.mem_singleton.mp this
  obtain ⟨hmem₀, hcreates₀⟩ := List.mem_filter.mp (he₀ ▸ List.mem_singleton_self e₀)
  obtain ⟨n₀, op₀, entry₀, rfl⟩ := createsEvent_iff.mp hcreates₀
  obtain ⟨path₀, body₀, ct₀, rfl, hpath₀⟩ := put_of_insert h hmem₀
  use n₀
  constructor
  · obtain ⟨i₀, hcall₀⟩ := sound.opened _ hmem₀
    obtain ⟨v₀, hv₀⟩ := sound.returned_of_quiescent quiescent hcall₀
    obtain ⟨r₀, rfl, -, hunique⟩ := exists_keySection h hv₀
    have hr₀ : r₀ = true := insert_answer_inj (hunique _ _ _ hmem₀ rfl).symm
    use path₀, body₀, ct₀
    rw [hr₀] at hv₀
    exact ⟨hv₀, hpath₀⟩
  · intro m path' body' ct' v hv hpath'
    obtain ⟨r, rfl, hinsert, hunique⟩ := exists_keySection h hv
    use r, rfl
    split
    · subst_vars
      have hr : r = true := insert_answer_inj (hunique _ _ _ hmem₀ rfl).symm
      rw [hr]
      rfl
    · rename_i hne
      have hr : r = false := by
        apply Bool.eq_false_iff.mpr
        rintro rfl
        apply hne
        have hcreates : createsEvent k (.act m (.put path' body' ct')
            (StoreOp.keySection (.put path' body' ct')) true : StoreEvent Client) = true := by
          apply createsEvent_iff.mpr
          rw [← hpath']
          exact ⟨_, _, _, rfl⟩
        apply (Event.act.inj (unique _ hinsert hcreates)).1
      rw [hr]
      rfl

/-- Two clients put `/a` at the same time. -/
def concurrentPuts : List (Turn Bool StoreOp Empty) :=
  [.call false (.put "/a".toList [1] []), .call true (.put "/a".toList [2] []),
    .act false, .act true, .act true, .act false, .ret false, .ret true]

theorem document_accounting_concurrentPuts :
  let cfg := storeMachine.after (Config.init LdpStore.new) concurrentPuts
  let k := "/a".toList
  ((answers cfg.history).countP (creates k) : ℤ) - (answers cfg.history).countP (removes k)
      = (if k ∈ cfg.shared then 1 else 0) ∧
    (cfg.Quiescent →
      (∀ i n path, .call i n (.delete path) ∈ cfg.history → LdpStore.key path ≠ k) →
      (∃ i n path body ct, .call i n (.put path body ct) ∈ cfg.history ∧
        LdpStore.key path = k) →
      ∃ n₀, (∃ path body ct, .ret n₀ (.put path body ct) (.flag true) ∈ cfg.history ∧
          LdpStore.key path = k) ∧
        ∀ n path body ct v, .ret n (.put path body ct) v ∈ cfg.history →
          LdpStore.key path = k → ∃ created, v = .flag created ∧
            putStatus created = if n = n₀ then .created else .noContent) ∧
    Reported k cfg.history
  := document_accounting (by decide) (by decide) (Machine.reachable_after concurrentPuts)

end ServerCore
