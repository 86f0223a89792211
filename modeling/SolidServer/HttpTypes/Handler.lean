import SolidServer.HttpTypes

/-!
# Handlers

An `OperationHttpHandler` answers an operation with a response or an error, and a
`WaterfallHandler` is a list of handlers.  What it is for is `Waterfall`: the first handler that
does not decline an operation answers it.  The code gives the operation to the first handler
and returns what that answers, so a handler behind it is reached in no case.
-/

open Text

namespace HttpTypes

variable {Operation Response : Type}

/-- Answers operations. -/
abbrev OperationHttpHandler (Operation Response : Type) :=
  Operation → Except SolidError Response

/-- A sequential chain of handlers. -/
structure WaterfallHandler (Operation Response : Type) where
  handlers : List (OperationHttpHandler Operation Response)

/-- Answer an operation: the loop over the handlers returns in its first iteration, as the
operation cannot be copied for a second one. -/
def WaterfallHandler.handleOperation (w : WaterfallHandler Operation Response) (op : Operation) :
    Except SolidError Response :=
  match w.handlers with
  | [] => .error (.methodNotAllowed "No handler accepted the operation".toList)
  | handler :: _ => handler op

/-! ### What a waterfall is for -/

/-- The answer is that the method is not allowed. -/
def declines : Except SolidError Response → Bool
  | .error (.methodNotAllowed _) => true
  | _ => false

/-- The answer is that of the first handler which does not decline the operation, and a refusal
if there is no such handler. -/
inductive Waterfall (op : Operation) :
    List (OperationHttpHandler Operation Response) → Except SolidError Response → Prop where
  | refused (message : Str) : Waterfall op [] (.error (.methodNotAllowed message))
  | first {handler handlers} (h : declines (handler op) = false) :
      Waterfall op (handler :: handlers) (handler op)
  | next {handler handlers r} (h : declines (handler op) = true) (rest : Waterfall op handlers r) :
      Waterfall op (handler :: handlers) r

namespace Waterfall

variable {op : Operation} {handlers : List (OperationHttpHandler Operation Response)}
  {r : Except SolidError Response}

/-- A waterfall refuses an operation exactly if all handlers decline it. -/
theorem declines_iff (h : Waterfall op handlers r) :
  declines r = true ↔ ∀ handler ∈ handlers, declines (handler op) = true
  := by
  induction h with
  | refused message =>
      constructor
      · intro _ handler hmem
        cases hmem
      · exact fun _ => rfl
  | first h =>
      rw [h, List.forall_mem_cons, h]
      simp
  | next h _ ih => rw [ih, List.forall_mem_cons, h, eq_self, true_and]

/-- Every refusal is what a waterfall answers if all handlers decline the operation. -/
theorem of_declines (h : ∀ handler ∈ handlers, declines (handler op) = true)
    (hr : declines r = true) :
  Waterfall op handlers r
  := by
  induction handlers with
  | nil =>
      rcases r with (_ | _ | _ | _ | _ | message | _) | response
      case error.methodNotAllowed => exact .refused message
      all_goals cases hr
  | cons handler handlers ih =>
      rw [List.forall_mem_cons] at h
      exact .next h.1 (ih h.2)

end Waterfall

/-- The first handler's answer is that of a waterfall exactly if it does not decline the
operation, or all handlers decline it. -/
theorem WaterfallHandler.waterfall_iff (w : WaterfallHandler Operation Response)
    (op : Operation) :
  Waterfall op w.handlers (w.handleOperation op)
    ↔ ∀ handler, w.handlers.head? = some handler → declines (handler op) = true →
      ∀ handler' ∈ w.handlers, declines (handler' op) = true
  := by
  obtain ⟨handlers⟩ := w
  cases handlers with
  | nil =>
      constructor
      · rintro _ handler ⟨⟩
      · exact fun _ => .refused _
  | cons first handlers =>
      constructor
      · rintro h handler ⟨⟩ hdeclines
        exact h.declines_iff.mp hdeclines
      · intro h
        cases hfirst : declines (first op) with
        | false => exact .first hfirst
        | true => exact .of_declines (h first rfl hfirst) hfirst

/-- A chain of a handler that declines everything and one that answers. -/
def declineThenAnswer : WaterfallHandler Unit Unit where
  handlers := [fun _ => .error (.methodNotAllowed []), fun _ => .ok ()]

/-- The second handler would answer, and is not asked. -/
theorem WaterfallHandler.not_waterfall :
  ¬ ∀ (w : WaterfallHandler Unit Unit) (op : Unit), Waterfall op w.handlers (w.handleOperation op)
  := by
  intro h
  have declined := (h declineThenAnswer ()).declines_iff.mp rfl (fun _ => .ok ())
    (List.mem_cons_of_mem _ List.mem_cons_self)
  cases declined

end HttpTypes
