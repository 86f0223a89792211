import SolidServer.Library.HashMap
import SolidServer.Library.Runs
import SolidServer.HttpTypes

/-!
# WebIDs

`BaseWebIdStore` holds the links between WebIDs and accounts by the ids of the links, which are
drawn at random.

A WebID is linked to an account at most once as long as no link is created that there already
is: `create` does not look for it.  Then a link that is deleted is no longer found.  Deleting a
link that was just created leaves everything as it was before, in any case.
-/

open Text HttpTypes

namespace Identity

/-- A WebID of an account. -/
structure WebIdLink where
  id : Str
  webId : Url
  accountId : Str
deriving DecidableEq

/-- The links by their ids. -/
structure BaseWebIdStore where
  links : HashMap Str WebIdLink

/-- The link is between the WebID and the account. -/
def WebIdLink.links (webId : Url) (accountId : Str) (l : WebIdLink) : Bool :=
  l.webId = webId && l.accountId = accountId

/-- The error for a link that is not stored. -/
def webIdLinkNotFound (linkId : Str) : Str :=
  "webid link not found: ".toList ++ linkId

namespace BaseWebIdStore

/-- The store without links. -/
def new : BaseWebIdStore where
  links := ∅

/-- The WebID is linked to the account. -/
def isLinked (webId : Url) (accountId : Str) (order : IterationOrder (Str × WebIdLink))
    (s : BaseWebIdStore) : Except Str Bool :=
  .ok ((s.links.values order).any fun l => l.links webId accountId)

/-- Link a WebID to an account. -/
def create (webId : Url) (accountId : Str) (id : Str) (s : BaseWebIdStore) :
    Except Str WebIdLink × BaseWebIdStore :=
  let link : WebIdLink := ⟨id, webId, accountId⟩
  (.ok link, ⟨s.links.insert id link⟩)

/-- The link with an id. -/
def get (linkId : Str) (s : BaseWebIdStore) : Except Str (Option WebIdLink) :=
  .ok (s.links.lookup linkId)

/-- The links of an account. -/
def findByAccount (accountId : Str) (order : IterationOrder (Str × WebIdLink))
    (s : BaseWebIdStore) : Except Str (List WebIdLink) :=
  .ok ((s.links.values order).filter fun l => l.accountId = accountId)

/-- Remove a link. -/
def delete (linkId : Str) (s : BaseWebIdStore) : Except Str Unit × BaseWebIdStore :=
  match s.links.lookup linkId with
  | some _ => (.ok (), ⟨s.links.erase linkId⟩)
  | none => (.error (webIdLinkNotFound linkId), s)

end BaseWebIdStore

/-- A call on the store, with the id that it draws. -/
inductive WebIdCall where
  | isLinked (webId : Url) (accountId : Str) (order : IterationOrder (Str × WebIdLink))
  | create (webId : Url) (accountId : Str) (id : Str)
  | get (linkId : Str)
  | findByAccount (accountId : Str) (order : IterationOrder (Str × WebIdLink))
  | delete (linkId : Str)

/-- What a call returns. -/
inductive WebIdResult where
  | linked (r : Except Str Bool)
  | created (r : Except Str WebIdLink)
  | link (r : Except Str (Option WebIdLink))
  | found (r : Except Str (List WebIdLink))
  | done (r : Except Str Unit)
deriving DecidableEq

namespace WebIdCall

/-- The result of a call and the store it leaves. -/
def perform : WebIdCall → BaseWebIdStore → WebIdResult × BaseWebIdStore
  | isLinked webId accountId order, s => (.linked (s.isLinked webId accountId order), s)
  | create webId accountId id, s =>
      let (r, s') := s.create webId accountId id
      (.created r, s')
  | get linkId, s => (.link (s.get linkId), s)
  | findByAccount accountId order, s => (.found (s.findByAccount accountId order), s)
  | delete linkId, s =>
      let (r, s') := s.delete linkId
      (.done r, s')

/-- The id that is drawn for a link is new. -/
def Fresh (s : BaseWebIdStore) : WebIdCall → Prop
  | create _ _ id => id ∉ s.links
  | _ => True

end WebIdCall

/-! ### What links are for -/

namespace BaseWebIdStore

/-- A link between the WebID and the account is stored. -/
def Linked (s : BaseWebIdStore) (webId : Url) (accountId : Str) : Prop :=
  ∃ k l, s.links.lookup k = some l ∧ l.webId = webId ∧ l.accountId = accountId

/-- There is at most one link between a WebID and an account. -/
def UniqueLinks (s : BaseWebIdStore) : Prop :=
  ∀ k k' l l', s.links.lookup k = some l → s.links.lookup k' = some l' →
    l.webId = l'.webId → l.accountId = l'.accountId → k = k'

/-- The stores give the same answers about links, those that are lists in any order. -/
def Agrees (s t : BaseWebIdStore) : Prop :=
  (∀ webId accountId order order',
      s.isLinked webId accountId order = t.isLinked webId accountId order') ∧
    ∀ accountId order order', ∃ l l', s.findByAccount accountId order = .ok l ∧
      t.findByAccount accountId order' = .ok l' ∧ l.Perm l'

/-- A link that is created under a new id and then deleted makes no difference. -/
def RollsBack (s : BaseWebIdStore) : Prop :=
  ∀ webId accountId id, id ∉ s.links →
    ∃ link created, s.create webId accountId id = (.ok link, created) ∧
      ∃ deleted, created.delete link.id = (.ok (), deleted) ∧ deleted.Agrees s

end BaseWebIdStore

namespace WebIdCall

/-- If the call deletes a link, the WebID is not linked to the account any more. -/
def Unlinks (call : WebIdCall) (s : BaseWebIdStore) : Prop :=
  ∀ linkId l, call = .delete linkId → s.links.lookup linkId = some l →
    (call.perform s).1 = .done (.ok ()) ∧
      ∀ order, (call.perform s).2.isLinked l.webId l.accountId order = .ok false

/-- The call links a WebID to an account that it is linked to. -/
def LinksAgain (s : BaseWebIdStore) : WebIdCall → Prop
  | create webId accountId _ => s.Linked webId accountId
  | _ => False

end WebIdCall

namespace BaseWebIdStore

variable {s : BaseWebIdStore}

/-- A WebID is linked to an account exactly if there is a link. -/
theorem isLinked_eq_true_iff {webId : Url} {accountId : Str}
    {order : IterationOrder (Str × WebIdLink)} :
  s.isLinked webId accountId order = .ok true ↔ s.Linked webId accountId
  := by
  have matches_iff : ∀ l : WebIdLink,
      l.links webId accountId = true ↔ l.webId = webId ∧ l.accountId = accountId := by
    intro l
    rw [WebIdLink.links, Bool.and_eq_true, decide_eq_true_eq, decide_eq_true_eq]
  rw [isLinked, Except.ok.injEq, List.any_eq_true]
  constructor
  · rintro ⟨l, hmem, hl⟩
    obtain ⟨⟨k, l⟩, hentry, rfl⟩ := List.mem_map.mp hmem
    exact ⟨k, l, HashMap.mem_iter.mp hentry, (matches_iff l).mp hl⟩
  · rintro ⟨k, l, hlookup, hl⟩
    use l, List.mem_map.mpr ⟨(k, l), HashMap.mem_iter.mpr hlookup, rfl⟩
    exact (matches_iff l).mpr hl

theorem isLinked_eq_false_iff {webId : Url} {accountId : Str}
    {order : IterationOrder (Str × WebIdLink)} :
  s.isLinked webId accountId order = .ok false ↔ ¬ s.Linked webId accountId
  := by
  have linked : s.isLinked webId accountId order = .ok true ↔ s.Linked webId accountId :=
    isLinked_eq_true_iff
  rw [← linked, isLinked, Except.ok.injEq, Except.ok.injEq]
  cases (s.links.values order).any fun l => l.links webId accountId <;> simp

/-- What is asked does not depend on the order in which the links are visited. -/
theorem Agrees.refl (s : BaseWebIdStore) :
  s.Agrees s
  := by
  have perm : ∀ order order', (s.links.values order).Perm (s.links.values order') :=
    fun order order' => ((order.perm _).trans (order'.perm _).symm).map Prod.snd
  constructor
  · intro webId accountId order order'
    rw [isLinked, isLinked, (perm order order').any_eq]
  · intro accountId order order'
    exact ⟨_, _, rfl, rfl, (perm order order').filter _⟩

/-- A link that is created is deleted under its id, and all others stay. -/
theorem rollsBack (s : BaseWebIdStore) :
  s.RollsBack
  := by
  intro webId accountId id hid
  refine ⟨_, _, rfl, s, ?_, Agrees.refl s⟩
  rw [delete, AList.lookup_insert]
  dsimp only
  rw [HashMap.erase_insert_of_notMem hid]

theorem UniqueLinks.new :
  new.UniqueLinks
  := by
  rintro k k' l l' ⟨⟩

/-- A new link keeps the links unique exactly if there is none like it. -/
theorem UniqueLinks.create_iff (h : s.UniqueLinks) (webId : Url) (accountId : Str) {id : Str}
    (fresh : id ∉ s.links) :
  (s.create webId accountId id).2.UniqueLinks ↔ ¬ s.Linked webId accountId
  := by
  constructor
  · rintro unique ⟨k, l, hl, rfl, rfl⟩
    have hne : k ≠ id := by
      rintro rfl
      exact HashMap.notMem_iff_lookup.mp fresh l hl
    apply hne
    exact unique k id l _ (HashMap.lookup_insert_eq_some_iff.mpr (.inr ⟨hne, hl⟩))
      (AList.lookup_insert s.links) rfl rfl
  · intro free k k' l l' hl hl' hweb haccount
    rcases HashMap.lookup_insert_eq_some_iff.mp hl with ⟨rfl, rfl⟩ | ⟨-, hold⟩
    · rcases HashMap.lookup_insert_eq_some_iff.mp hl' with ⟨rfl, -⟩ | ⟨-, hold'⟩
      · rfl
      · exact absurd ⟨k', l', hold', hweb.symm, haccount.symm⟩ free
    · rcases HashMap.lookup_insert_eq_some_iff.mp hl' with ⟨rfl, rfl⟩ | ⟨-, hold'⟩
      · exact absurd ⟨k, l, hold, hweb, haccount⟩ free
      · exact h k k' l l' hold hold' hweb haccount

/-- Removing a link keeps the others unique. -/
theorem UniqueLinks.erase (h : s.UniqueLinks) (linkId : Str) :
  UniqueLinks ⟨s.links.erase linkId⟩
  := by
  intro k k' l l' hl hl'
  exact h k k' l l' (HashMap.lookup_erase_eq_some_iff.mp hl).2
    (HashMap.lookup_erase_eq_some_iff.mp hl').2

/-- If links are unique, then deleting one leaves no other one like it. -/
theorem UniqueLinks.unlinks (h : s.UniqueLinks) (call : WebIdCall) :
  call.Unlinks s
  := by
  rintro linkId l rfl hl
  have deleted : s.delete linkId = (.ok (), ⟨s.links.erase linkId⟩) := by rw [delete, hl]
  rw [WebIdCall.perform, deleted]
  use rfl
  intro order
  apply isLinked_eq_false_iff.mpr
  rintro ⟨k, l', hl', hweb, haccount⟩
  obtain ⟨hne, hold⟩ := HashMap.lookup_erase_eq_some_iff.mp hl'
  exact hne (h k linkId l' l hold hl hweb haccount)

/-- A call keeps the links unique exactly if it does not link again. -/
theorem UniqueLinks.perform_iff (h : s.UniqueLinks) {call : WebIdCall} (fresh : call.Fresh s) :
  (call.perform s).2.UniqueLinks ↔ ¬ call.LinksAgain s
  := by
  cases call with
  | create webId accountId id => exact h.create_iff webId accountId fresh
  | isLinked _ _ _ | get _ | findByAccount _ _ => exact iff_of_true h not_false
  | delete linkId =>
      apply iff_of_true _ not_false
      rw [WebIdCall.perform, delete]
      cases s.links.lookup linkId with
      | none => exact h
      | some l => exact h.erase linkId

/-- In a run in which the ids drawn are new, a WebID is linked to an account at most once, and it
is not linked to it any more when the link is deleted, exactly if no link is created that there
already is.  A link that is created and then deleted leaves everything as it was, in any case. -/
theorem webids_unique_iff (calls : List WebIdCall)
    (fresh : Run.Each WebIdCall.perform (fun call s => call.Fresh s) calls new) :
  (Run.Throughout WebIdCall.perform (fun s => s.UniqueLinks ∧ s.RollsBack) calls new ∧
      Run.Each WebIdCall.perform (fun call s => call.Unlinks s) calls new)
    ↔ Run.Each WebIdCall.perform (fun call s => ¬ call.LinksAgain s) calls new
  := by
  apply Run.keeps_iff _ fresh ⟨UniqueLinks.new, rollsBack new⟩
  rintro call s hfresh ⟨unique, -⟩
  rw [← unique.perform_iff hfresh]
  constructor
  · exact fun h => h.1.1
  · exact fun h => ⟨⟨h, rollsBack _⟩, unique.unlinks call⟩

/-- An account is linked to two WebIDs, and one of the links is deleted. -/
def linkTwo : List WebIdCall :=
  [.create ⟨"https://me/".toList⟩ "a".toList "1".toList,
    .create ⟨"https://you/".toList⟩ "a".toList "2".toList, .delete "1".toList]

theorem webids_unique_iff_linkTwo :
  (Run.Throughout WebIdCall.perform (fun s => s.UniqueLinks ∧ s.RollsBack) linkTwo new ∧
      Run.Each WebIdCall.perform (fun call s => call.Unlinks s) linkTwo new)
    ↔ Run.Each WebIdCall.perform (fun call s => ¬ call.LinksAgain s) linkTwo new
  := by
  apply webids_unique_iff linkTwo
  refine ⟨AList.notMem_empty _, ?_, trivial, trivial⟩
  change "2".toList ∉ _
  decide

/-- A WebID is linked to an account twice. -/
def linkTwice : List WebIdCall :=
  [.create ⟨"https://me/".toList⟩ "a".toList "1".toList,
    .create ⟨"https://me/".toList⟩ "a".toList "2".toList, .delete "1".toList]

/-- The second link is stored as well, and is left when the first one is deleted. -/
theorem not_webids_unique :
  ¬ ∀ calls : List WebIdCall,
    Run.Each WebIdCall.perform (fun call s => call.Fresh s) calls new →
      Run.Throughout WebIdCall.perform (fun s => s.UniqueLinks ∧ s.RollsBack) calls new ∧
        Run.Each WebIdCall.perform (fun call s => call.Unlinks s) calls new
  := by
  intro h
  have fresh : Run.Each WebIdCall.perform (fun call s => call.Fresh s) linkTwice new := by
    refine ⟨AList.notMem_empty _, ?_, trivial, trivial⟩
    change "2".toList ∉ _
    decide
  obtain ⟨-, -, -, hunlinks, -⟩ := h linkTwice fresh
  have unlinked := (hunlinks "1".toList _ rfl rfl).2 (.listed _)
  revert unlinked
  decide

end BaseWebIdStore

end Identity
