import SolidServer.Library.Text

/-!
# Searching in strings

`rfind s c` is the position of the last `c` in a string, and `find p s` that of the first
occurrence of `p`.  Positions count characters: what precedes or follows a position that was
found is the same as when octets are counted.

An occurrence at the end of `t ++ p` is the first one exactly if `p` begins nowhere in `t`
(`find_append_eq_some_iff`), and `p` begins `u ++ p` exactly if it is a part of `u`, `u`, `u`, …
(`prefix_append_self_iff`).
-/

namespace Text

/-- The position of the last `c`. -/
def rfind : Str → Char → Option ℕ
  | [], _ => none
  | d :: s, c =>
      match rfind s c with
      | some i => some (i + 1)
      | none => if d = c then some 0 else none

/-- The position of the first occurrence of `p`. -/
def find (p : Str) : Str → Option ℕ
  | [] => if p.isEmpty then some 0 else none
  | c :: s => if p.isPrefixOf (c :: s) then some 0 else (find p s).map (· + 1)

/-- The string is an initial part of the endless repetition of `u`. -/
def Repeats (u p : Str) : Prop :=
  ∃ n, p <+: (List.replicate n u).flatten

theorem rfind_eq_none {s : Str} {c : Char} (h : c ∉ s) :
  rfind s c = none
  := by
  induction s with
  | nil => rfl
  | cons d s ih =>
      have hd : d ≠ c := Ne.symm (List.ne_of_not_mem_cons h)
      rw [rfind, ih (List.not_mem_of_not_mem_cons h)]
      exact if_neg hd

/-- Nothing behind the last `c` is found. -/
theorem rfind_append_cons (s : Str) {t : Str} {c : Char} (h : c ∉ t) :
  rfind (s ++ c :: t) c = some s.length
  := by
  induction s with
  | nil =>
      rw [List.nil_append, rfind, rfind_eq_none h]
      exact if_pos rfl
  | cons d s ih =>
      rw [List.cons_append, rfind, ih]
      rfl

theorem find_self (p : Str) :
  find p p = some 0
  := by
  cases p with
  | nil => rfl
  | cons c p =>
      apply if_pos
      simp

/-- A string is found behind `t` exactly if it begins nowhere before. -/
theorem find_append_eq_some_iff {p t : Str} :
  find p (t ++ p) = some t.length ↔ ∀ v, v <:+ t → v ≠ [] → ¬ p <+: v ++ p
  := by
  induction t with
  | nil =>
      constructor
      · intro _ v hv hne
        exact absurd (List.suffix_nil.mp hv) hne
      · exact fun _ => find_self p
  | cons c t ih =>
      rw [List.cons_append, find]
      by_cases hbegins : p <+: c :: (t ++ p)
      · rw [if_pos (List.isPrefixOf_iff_prefix.mpr hbegins)]
        constructor
        · intro h
          cases h
        · intro h
          exact absurd hbegins (h _ List.suffix_rfl (List.cons_ne_nil c t))
      · rw [if_neg fun h => hbegins (List.isPrefixOf_iff_prefix.mp h), List.length_cons,
          Option.map_eq_some_iff]
        constructor
        · rintro ⟨i, hi, hlength⟩ v hv hne
          obtain rfl : i = t.length := Nat.succ.inj hlength
          rcases List.suffix_cons_iff.mp hv with rfl | hv
          · exact hbegins
          · exact ih.mp hi v hv hne
        · intro h
          use t.length, ih.mpr fun v hv => h v (hv.trans (List.suffix_cons c t))

/-- What is followed by itself begins the whole exactly if it repeats the other part. -/
theorem prefix_append_self_iff {u p : Str} (hu : u ≠ []) :
  p <+: u ++ p ↔ Repeats u p
  := by
  constructor
  · intro h
    have rep : ∀ n, p <+: (List.replicate n u).flatten ++ p := by
      intro n
      induction n with
      | zero => exact List.prefix_rfl
      | succ n ih =>
          rw [List.replicate_succ, List.flatten_cons, List.append_assoc]
          exact h.trans ((List.prefix_append_right_inj u).mpr ih)
    use p.length
    apply List.prefix_of_prefix_length_le (rep p.length) (List.prefix_append _ _)
    rw [List.length_flatten, List.map_replicate, List.sum_replicate_nat]
    exact Nat.le_mul_of_pos_right _ (List.length_pos_iff.mpr hu)
  · rintro ⟨n, hn⟩
    have longer : (List.replicate (n + 1) u).flatten = (List.replicate n u).flatten ++ u := by
      rw [List.replicate_succ', List.flatten_concat]
    have whole : p <+: (List.replicate (n + 1) u).flatten := by
      rw [longer]
      exact hn.trans (List.prefix_append _ u)
    have shifted : u ++ p <+: (List.replicate (n + 1) u).flatten := by
      rw [List.replicate_succ, List.flatten_cons]
      exact (List.prefix_append_right_inj u).mpr hn
    apply List.prefix_of_prefix_length_le whole shifted
    rw [List.length_append]
    omega

end Text
