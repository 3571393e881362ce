import UhmiIviWm.Verify.Responses
import UhmiIviWm.Verify.Strays

/-!
# What a client is told

A handler reports whether it went through its whole message (`handler_returns`).
`parser_parse_recv_command` does not look at the report and returns 0 for every
message, also for one that is not JSON or names no command. So the reply is right
exactly where there was nothing to report (`reply_iff`).
-/

namespace UhmiIviWm

open Lib.CallPlan

variable {σ : Type} {ilm : Ilm σ} {known : Id → Bool}

/-- Whatever becomes of the message, 0 is returned. -/
theorem parser_returns_zero {body : Option Json} {w w' : World σ} {ret : Int}
    (h : parserParseRecvCommand ilm body w = .ok (ret, w')) : ret = 0 := by
  obtain ⟨version, t, -, h⟩ := Comp.bind_eq_ok.mp h
  obtain ⟨name, u, -, h⟩ := Comp.bind_eq_ok.mp h
  cases name with
  | none =>
    cases h
    rfl
  | some cmdName =>
    dsimp only at h
    cases hfound : commandOfName cmdName with
    | none =>
      rw [hfound] at h
      cases h
      rfl
    | some command =>
      rw [hfound] at h
      obtain ⟨r, v, -, h⟩ := Comp.bind_eq_ok.mp h
      cases h
      rfl

/-- Removes layer 3000. -/
def removeOne : Option Json :=
  some (.object [("command", .string "remove_layer"), ("layers", .array [layerObject 3000 []])])

end UhmiIviWm
