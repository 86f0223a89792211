import SolidServer.Library.Sections
import SolidServer.Identity.LabelIndex

/-!
# Revoked tokens

While clients create, look up and delete tokens concurrently, the tokens that are stored by
their ids are those that were created and not deleted, section by section.  Once the deletion
of a token has returned, no call that is made later returns the token, by whatever it looks for
it, and whatever calls were on their way when it was deleted: a lookup by a label that still
leads to the token does not find it either.
-/

open Text Atomic

namespace Identity

/-- The id of the token that a section stores. -/
def CredentialsCmd.inserted : CredentialsCmd → Option Str
  | insertById id _ => some id
  | _ => none

/-- The tokens that a section knows of when it has released its lock. -/
def CredentialsCmd.shown : (Σ c, CredentialsCmd.Answer c) → List ClientCredentials
  | ⟨getById _, r⟩ => Option.toList (α := ClientCredentials) r
  | ⟨filterById _ _, l⟩ => l
  | ⟨insertById _ creds, _⟩ => [creds]
  | _ => []

/-- The tokens that a call returns. -/
def CredentialsResult.shown : CredentialsResult → List ClientCredentials
  | token (.ok r) => r.toList
  | tokens (.ok l) => l
  | created (.ok creds) => [creds]
  | _ => []

/-- The token was inserted. -/
def Inserted (log : List (Σ c, CredentialsCmd.Answer c)) (id : Str) (creds : ClientCredentials) :
    Prop :=
  ⟨.insertById id creds, ()⟩ ∈ log

/-- The token with the id was removed. -/
def Removed (log : List (Σ c, CredentialsCmd.Answer c)) (id : Str) : Prop :=
  ∃ creds : ClientCredentials, ⟨.removeById id, some creds⟩ ∈ log

/-- The stored tokens are those that were inserted, one for each id, and not removed. -/
structure Stocked (log : List (Σ c, CredentialsCmd.Answer c)) (s : BaseClientCredentialsStore) :
    Prop where
  lookup_iff : ∀ id creds, s.byId.lookup id = some creds ↔
    Inserted log id creds ∧ ¬ Removed log id
  unique : ∀ id creds creds', Inserted log id creds → Inserted log id creds' → creds = creds'
  inserted : ∀ id, Removed log id → ∃ creds, Inserted log id creds

namespace Stocked

variable {log : List (Σ c, CredentialsCmd.Answer c)} {s : BaseClientCredentialsStore}

theorem new :
  Stocked [] .new
  := by
  constructor
  case lookup_iff =>
    intro id creds
    constructor
    · rintro ⟨⟩
    · rintro ⟨⟨⟩, -⟩
  case unique => rintro id creds creds' ⟨⟩
  case inserted => rintro id ⟨creds, ⟨⟩⟩

/-- A section that inserts and removes nothing. -/
theorem quiet (h : Stocked log s) {o : Σ c, CredentialsCmd.Answer c}
    (inserts : ∀ id creds, o ≠ ⟨.insertById id creds, ()⟩)
    (removes : ∀ id (creds : ClientCredentials), o ≠ ⟨.removeById id, some creds⟩)
    {s' : BaseClientCredentialsStore} (same : ∀ id, s'.byId.lookup id = s.byId.lookup id) :
  Stocked (log ++ [o]) s'
  := by
  have inserted : ∀ {id creds}, Inserted (log ++ [o]) id creds ↔ Inserted log id creds := by
    intro id creds
    rw [Inserted, List.mem_append, List.mem_singleton, or_iff_left (inserts id creds).symm]
    rfl
  have removed : ∀ {id}, Removed (log ++ [o]) id ↔ Removed log id := by
    intro id
    apply exists_congr
    intro creds
    rw [List.mem_append, List.mem_singleton, or_iff_left (removes id creds).symm]
  constructor
  case lookup_iff =>
    intro id creds
    rw [same, inserted, removed, h.lookup_iff]
  case unique =>
    intro id creds creds'
    rw [inserted, inserted]
    apply h.unique id creds creds'
  case inserted =>
    intro id hid
    obtain ⟨creds, hcreds⟩ := h.inserted id (removed.mp hid)
    exact ⟨creds, inserted.mpr hcreds⟩

/-- A token is inserted with a new id. -/
theorem insert (h : Stocked log s) {id : Str} (creds : ClientCredentials)
    (fresh : ∀ creds, ¬ Inserted log id creds) :
  Stocked (log ++ [⟨.insertById id creds, ()⟩]) { s with byId := s.byId.insert id creds }
  := by
  have inserted : ∀ {id' creds'}, Inserted (log ++ [⟨.insertById id creds, ()⟩]) id' creds' ↔
      Inserted log id' creds' ∨ (id' = id ∧ creds' = creds) := by
    intro id' creds'
    rw [Inserted, List.mem_append, List.mem_singleton]
    apply or_congr Iff.rfl
    constructor
    · rintro ⟨⟩
      exact ⟨rfl, rfl⟩
    · rintro ⟨rfl, rfl⟩
      rfl
  have removed : ∀ {id'}, Removed (log ++ [⟨.insertById id creds, ()⟩]) id' ↔ Removed log id' := by
    intro id'
    apply exists_congr
    intro creds'
    rw [List.mem_append, List.mem_singleton, or_iff_left]
    rintro ⟨⟩
  have unremoved : ¬ Removed log id := by
    intro hid
    obtain ⟨creds', hcreds'⟩ := h.inserted id hid
    apply fresh creds' hcreds'
  constructor
  case lookup_iff =>
    intro id' creds'
    rw [HashMap.lookup_insert_eq_some_iff, inserted, removed, h.lookup_iff]
    constructor
    · rintro (⟨rfl, rfl⟩ | ⟨-, hold, hremoved⟩)
      · exact ⟨.inr ⟨rfl, rfl⟩, unremoved⟩
      · exact ⟨.inl hold, hremoved⟩
    · rintro ⟨hold | ⟨rfl, rfl⟩, hremoved⟩
      · right
        refine ⟨?_, hold, hremoved⟩
        rintro rfl
        apply fresh creds' hold
      · exact .inl ⟨rfl, rfl⟩
  case unique =>
    intro id' creds₁ creds₂ h₁ h₂
    rcases inserted.mp h₁ with old₁ | ⟨rfl, rfl⟩
    · rcases inserted.mp h₂ with old₂ | ⟨rfl, -⟩
      · apply h.unique id' creds₁ creds₂ old₁ old₂
      · exact absurd old₁ (fresh creds₁)
    · rcases inserted.mp h₂ with old₂ | ⟨-, rfl⟩
      · exact absurd old₂ (fresh creds₂)
      · rfl
  case inserted =>
    intro id' hid'
    obtain ⟨creds', hcreds'⟩ := h.inserted id' (removed.mp hid')
    exact ⟨creds', inserted.mpr (.inl hcreds')⟩

/-- A stored token is removed. -/
theorem remove (h : Stocked log s) {id : Str} {creds : ClientCredentials}
    (hcreds : s.byId.lookup id = some creds) :
  Stocked (log ++ [⟨.removeById id, some creds⟩]) { s with byId := s.byId.erase id }
  := by
  obtain ⟨hinserted, -⟩ := (h.lookup_iff id creds).mp hcreds
  have inserted : ∀ {id' creds'}, Inserted (log ++ [⟨.removeById id, some creds⟩]) id' creds' ↔
      Inserted log id' creds' := by
    intro id' creds'
    rw [Inserted, List.mem_append, List.mem_singleton, or_iff_left]
    · rfl
    · rintro ⟨⟩
  have removed : ∀ {id'}, Removed (log ++ [⟨.removeById id, some creds⟩]) id' ↔
      Removed log id' ∨ id' = id := by
    intro id'
    simp only [Removed, List.mem_append, List.mem_singleton, exists_or]
    apply or_congr Iff.rfl
    constructor
    · rintro ⟨creds', ⟨⟩⟩
      rfl
    · rintro rfl
      exact ⟨creds, rfl⟩
  constructor
  case lookup_iff =>
    intro id' creds'
    rw [HashMap.lookup_erase_eq_some_iff, inserted, removed, not_or, h.lookup_iff]
    constructor
    · rintro ⟨hne, hold, hremoved⟩
      exact ⟨hold, hremoved, hne⟩
    · rintro ⟨hold, hremoved, hne⟩
      exact ⟨hne, hold, hremoved⟩
  case unique =>
    intro id' creds₁ creds₂
    rw [inserted, inserted]
    apply h.unique id' creds₁ creds₂
  case inserted =>
    intro id' hid'
    rcases removed.mp hid' with hid' | rfl
    · obtain ⟨creds', hcreds'⟩ := h.inserted id' hid'
      exact ⟨creds', inserted.mpr hcreds'⟩
    · exact ⟨creds, inserted.mpr hinserted⟩

/-- Every section keeps this, if the id that it stores a token with is new. -/
theorem step (h : Stocked log s) (c : CredentialsCmd)
    (fresh : ∀ id, c.inserted = some id → ∀ creds, ¬ Inserted log id creds) :
  Stocked (log ++ [⟨c, (c.exec s).1⟩]) (c.exec s).2
  := by
  cases c with
  | insertById id creds => apply h.insert creds (fresh id rfl)
  | removeById id =>
      cases hid : s.byId.lookup id with
      | some creds =>
          have kept := h.remove hid
          rw [← hid] at kept
          apply kept
      | none =>
          apply h.quiet
          · rintro id' creds' ⟨⟩
          · intro id' creds' heq
            cases heq.symm.trans (by rw [CredentialsCmd.exec, hid])
          · intro id'
            change (s.byId.erase id).lookup id' = s.byId.lookup id'
            rw [HashMap.erase_of_notMem]
            apply HashMap.notMem_iff_lookup.mpr
            rw [hid]
            rintro creds ⟨⟩
  | getById id | getByLabel label | filterById accountId order | insertByLabel label id
  | removeByLabel label =>
      apply h.quiet
      · rintro id' creds' ⟨⟩
      · rintro id' creds' ⟨⟩
      · exact fun id' => rfl

end Stocked

/-! ### Runs -/

/-- A token that the section inserts has the id that the call has drawn. -/
def CredentialsCall.Inserts (call : CredentialsCall) (c : CredentialsCmd) : Prop :=
  ∀ id creds, c = .insertById id creds → call.drawn = some id ∧ creds.id = id

theorem CredentialsCall.issues_impl (call : CredentialsCall) :
  call.impl.Issues call.Inserts
  := by
  cases call with
  | get id => exact ⟨by rintro _ _ ⟨⟩, fun _ => trivial⟩
  | findByLabel label =>
      refine ⟨by rintro _ _ ⟨⟩, ?_⟩
      intro r
      cases r with
      | none => trivial
      | some id => exact ⟨by rintro _ _ ⟨⟩, fun _ => trivial⟩
  | findByAccount accountId order => exact ⟨by rintro _ _ ⟨⟩, fun _ => trivial⟩
  | create label webId accountId id secret =>
      refine ⟨?_, fun _ => ⟨by rintro _ _ ⟨⟩, fun _ => trivial⟩⟩
      rintro id' creds ⟨⟩
      exact ⟨rfl, rfl⟩
  | delete id =>
      refine ⟨by rintro _ _ ⟨⟩, ?_⟩
      intro r
      cases r with
      | none => trivial
      | some creds => exact ⟨by rintro _ _ ⟨⟩, fun _ => trivial⟩

theorem CredentialsCall.onePoint_impl {call : CredentialsCall} (h : call.drawn.isSome) :
  call.impl.OnePoint fun c => c.inserted.isSome
  := by
  cases call with
  | create label webId accountId id secret =>
      exact fun _ => ⟨rfl, fun _ => trivial⟩
  | get | findByLabel | findByAccount | delete => cases h

section

variable {Client : Type} [DecidableEq Client] {cfg : CredentialsConfig Client}

/-- Before a section in the history, the stored tokens are those that were inserted and not
removed so far, and a token that the section inserts has a new id. -/
theorem stocked_before
    (h : credentialsMachine.Reaches (fun cfg turn => freshCall CredentialsCall.drawn cfg turn)
      (Config.init .new) cfg)
    {l₁ l₂ : List (CredentialsEvent Client)} {n : ℕ} {call : CredentialsCall} {c : CredentialsCmd}
    {r : c.Answer} (hl : cfg.history = l₁ ++ .act n call c r :: l₂) :
  ∃ s, Stocked (answers l₁) s ∧ (c.exec s).1 = r ∧
    ∀ id, c.inserted = some id → ∀ creds, ¬ Inserted (answers l₁) id creds
  := by
  have issues : ∀ call : CredentialsCall, call.impl.Issues fun c =>
      ∀ id, c.inserted = some id → call.drawn = some id := by
    intro call
    apply Prog.Issues.mono _ call.issues_impl
    intro c hc id hid
    cases c with
    | insertById id' creds =>
        obtain rfl := Option.some.inj hid
        apply (hc id' creds rfl).1
    | _ => cases hid
  have keep : ∀ (log : List (Σ c, CredentialsCmd.Answer c)) o s s', Stocked log s →
      o.1.exec s = (o.2, s') →
      (∀ id, o.1.inserted = some id → ∀ o' ∈ log, o'.1.inserted ≠ some id) →
      Stocked (log ++ [o]) s' := by
    intro log o s s' ih hexec fresh
    have step := ih.step o.1 fun id hid creds hcreds => fresh id hid _ hcreds rfl
    rwa [hexec] at step
  obtain ⟨s, s', hs, hexec, fresh⟩ := invariant_before id (fun o s s' => o.1.exec s = (o.2, s'))
    (fun c s r t hexec => Option.some.inj hexec) (fun e => e.elim) issues
    (fun _ => CredentialsCall.onePoint_impl) Stocked Stocked.new keep h
    (FreshCalls.of_reaches h fun _ _ hfresh => hfresh) hl
  exact ⟨s, hs, congrArg Prod.fst hexec, fun id hid creds hcreds => fresh id hid _ hcreds rfl⟩

/-- A token was inserted with its own id. -/
theorem id_eq_of_inserted
    (h : credentialsMachine.Reaches (fun cfg turn => freshCall CredentialsCall.drawn cfg turn)
      (Config.init .new) cfg)
    {l₁ l₂ : List (CredentialsEvent Client)} (hl : cfg.history = l₁ ++ l₂) {id : Str}
    {creds : ClientCredentials} (hinserted : Inserted (answers l₁) id creds) :
  creds.id = id
  := by
  obtain ⟨e, he, hanswer⟩ := List.mem_filterMap.mp hinserted
  cases e with
  | call | ret => cases hanswer
  | act n call c r =>
      obtain rfl := congrArg Sigma.fst (Option.some.inj hanswer)
      have issued := issued_of_reaches (fun call => call.issues_impl) h
        (hl ▸ List.mem_append_left l₂ he)
      apply (issued id creds rfl).2

/-- The tokens that a call returns are known to one of its sections. -/
theorem shown_of_follows {call : CredentialsCall} {r : CredentialsResult}
    {l : List (Σ c, CredentialsCmd.Answer c)} (h : Follows call.impl l (.ret r)) :
  ∀ creds ∈ r.shown, ∃ o ∈ l, creds ∈ CredentialsCmd.shown o
  := by
  intro creds hcreds
  cases call with
  | get id =>
      obtain ⟨r', l', rfl, hrest⟩ := h.act_ret
      obtain ⟨-, hr⟩ := hrest.ret_eq
      obtain rfl := Prog.ret.inj hr
      exact ⟨_, List.mem_cons_self, hcreds⟩
  | findByLabel label =>
      obtain ⟨r', l', rfl, hrest⟩ := h.act_ret
      cases r' with
      | none =>
          obtain ⟨-, hr⟩ := hrest.ret_eq
          obtain rfl := Prog.ret.inj hr
          cases hcreds
      | some id =>
          obtain ⟨r', l', rfl, hlast⟩ := hrest.act_ret
          obtain ⟨-, hr⟩ := hlast.ret_eq
          obtain rfl := Prog.ret.inj hr
          exact ⟨_, List.mem_cons_of_mem _ List.mem_cons_self, hcreds⟩
  | findByAccount accountId order =>
      obtain ⟨r', l', rfl, hrest⟩ := h.act_ret
      obtain ⟨-, hr⟩ := hrest.ret_eq
      obtain rfl := Prog.ret.inj hr
      exact ⟨_, List.mem_cons_self, hcreds⟩
  | create label webId accountId id secret =>
      obtain ⟨r', l', rfl, hrest⟩ := h.act_ret
      obtain ⟨_, l', rfl, hlast⟩ := hrest.act_ret
      obtain ⟨-, hr⟩ := hlast.ret_eq
      obtain rfl := Prog.ret.inj hr
      exact ⟨_, List.mem_cons_self, hcreds⟩
  | delete id =>
      obtain ⟨r', l', rfl, hrest⟩ := h.act_ret
      cases r' with
      | none =>
          obtain ⟨-, hr⟩ := hrest.ret_eq
          obtain rfl := Prog.ret.inj hr
          cases hcreds
      | some creds' =>
          obtain ⟨_, l', rfl, hlast⟩ := hrest.act_ret
          obtain ⟨-, hr⟩ := hlast.ret_eq
          obtain rfl := Prog.ret.inj hr
          cases hcreds

/-- A deletion that has returned has removed the token. -/
theorem removed_of_follows {id : Str} {l : List (Σ c, CredentialsCmd.Answer c)}
    (h : Follows (CredentialsCall.delete id).impl l (.ret (.deleted (.ok ())))) :
  ∃ creds : ClientCredentials, ⟨.removeById id, some creds⟩ ∈ l
  := by
  obtain ⟨r', l', rfl, hrest⟩ := h.act_ret
  cases r' with
  | none =>
      obtain ⟨-, hr⟩ := hrest.ret_eq
      cases hr
  | some creds => exact ⟨creds, List.mem_cons_self⟩

/-- A section knows of no token that was removed before. -/
theorem Stocked.shown {log : List (Σ c, CredentialsCmd.Answer c)} {s : BaseClientCredentialsStore}
    (h : Stocked log s) (own : ∀ id creds, Inserted log id creds → creds.id = id)
    {c : CredentialsCmd} (inserts : ∀ id creds, c = .insertById id creds →
      creds.id = id ∧ ∀ creds', ¬ Inserted log id creds') :
  ∀ creds ∈ CredentialsCmd.shown ⟨c, (c.exec s).1⟩, ¬ Removed log creds.id
  := by
  -- a token that is stored
  have stored : ∀ {id creds}, s.byId.lookup id = some creds → ¬ Removed log creds.id := by
    intro id creds hcreds
    obtain ⟨hinserted, hremoved⟩ := (h.lookup_iff id creds).mp hcreds
    rwa [own id creds hinserted]
  intro creds hcreds
  cases c with
  | getById id => apply stored (Option.mem_toList.mp hcreds)
  | filterById accountId order =>
      obtain ⟨hvalue, -⟩ := List.mem_filter.mp hcreds
      obtain ⟨⟨id, creds⟩, hentry, rfl⟩ := List.mem_map.mp hvalue
      apply stored (HashMap.mem_iter.mp hentry)
  | insertById id creds' =>
      obtain rfl := List.mem_singleton.mp hcreds
      obtain ⟨hid, fresh⟩ := inserts id creds rfl
      rw [hid]
      intro hremoved
      obtain ⟨creds', hcreds'⟩ := h.inserted id hremoved
      apply fresh creds' hcreds'
  | getByLabel | insertByLabel | removeById | removeByLabel => cases hcreds

/-- In every run in which the ids drawn are new, once the deletion of a token has returned, no call
that is made later returns a token with its id. -/
theorem revoked_for_good
    (h : credentialsMachine.Reaches (fun cfg turn => freshCall CredentialsCall.drawn cfg turn)
      (Config.init .new) cfg)
    {id : Str} {i : Client} {a b : ℕ} {call : CredentialsCall} {r : CredentialsResult}
    (hbefore : Before cfg.history (.ret a (.delete id) (.deleted (.ok ()))) (.call i b call))
    (hret : .ret b call r ∈ cfg.history) :
  ∀ creds ∈ r.shown, creds.id ≠ id
  := by
  have followed := Followed.of_reaches h
  rintro creds hcreds rfl
  obtain ⟨creds', hremoved⟩ := removed_of_follows (followed.returned a _ _ hbefore.left_mem)
  obtain ⟨⟨c, answer⟩, hanswer, hknown⟩ :=
    shown_of_follows (followed.returned b call r hret) creds hcreds
  obtain ⟨l₁, l₂, hhistory, hmem⟩ := answered_before h hbefore hremoved hanswer
  obtain ⟨s, stocked, rfl, fresh⟩ := stocked_before h hhistory
  apply stocked.shown (fun id creds hinserted => id_eq_of_inserted h hhistory hinserted) _ creds
    hknown ⟨creds', hmem⟩
  rintro id creds'' rfl
  have issued := issued_of_reaches (fun call => call.issues_impl) h
    (hhistory ▸ List.mem_append_right l₁ List.mem_cons_self)
  exact ⟨(issued id creds'' rfl).2, fresh id rfl⟩

end

/-- A lookup by a label finds the id of a token that is deleted before it looks for the token,
and the other token of the account stays. -/
def deleteDuringLookup : List (Turn Bool CredentialsCall Empty) :=
  let create (label id : String) : CredentialsCall :=
    .create label.toList ⟨"https://me/".toList⟩ "a".toList id.toList "s".toList
  [.call false (create "l" "t"), .act false, .act false, .ret false,
    .call false (create "m" "u"), .act false, .act false, .ret false,
    .call true (.findByLabel "l".toList), .act true,
    .call false (.delete "t".toList), .act false, .act false, .ret false,
    .act true, .ret true,
    .call true (.findByAccount "a".toList (.listed _)), .act true, .ret true]

/-- The configuration that the schedule leads to. -/
def deletedDuringLookup : CredentialsConfig Bool :=
  credentialsMachine.after (Config.init .new) deleteDuringLookup

/-- The token that stays. -/
def otherToken : ClientCredentials :=
  ⟨"u".toList, "m".toList, ⟨"https://me/".toList⟩, "a".toList, "s".toList⟩

theorem revoked_for_good_deleteDuringLookup :
  (CredentialsResult.tokens (.ok [otherToken])).shown.all (·.id ≠ "t".toList) = true
  := by
  have hret : .ret 4 (.findByAccount "a".toList (.listed _)) (.tokens (.ok [otherToken]))
      ∈ deletedDuringLookup.history :=
    List.mem_of_getElem? (i := 18) rfl
  have hbefore : Before deletedDuringLookup.history
      (.ret 3 (.delete "t".toList) (.deleted (.ok ())))
      (.call true 4 (.findByAccount "a".toList (.listed _))) := by
    use deletedDuringLookup.history.take 16, deletedDuringLookup.history.drop 16, rfl
    constructor
    · apply List.mem_of_getElem? (i := 13) rfl
    · apply List.mem_of_getElem? (i := 0) rfl
  rw [List.all_eq_true]
  intro creds hcreds
  apply decide_eq_true
  apply revoked_for_good (Machine.reaches_after deleteDuringLookup (by decide)) hbefore hret
  apply hcreds

end Identity
