import BlockScript.Proofs.Execution.Alike
import BlockScript.Proofs.Typing.Slots
import BlockScript.Script
/-! Running looks at no slot: a program runs as it was read, whatever its slots hold. -/
namespace BlockScript

section
variable (call : Caller) (rounds scope : ℕ)

mutual
theorem Expr.evaluate_bare (e : Expr) : e.bare.evaluate call scope = e.evaluate call scope := by
  cases e with
  | literal v s => simp only [bare,evaluate]
  | group e s => simp only [bare,evaluate,Expr.evaluate_bare e]
  | binary op l r s => simp only [bare,evaluate,Expr.evaluate_bare l,Expr.evaluate_bare r]
  | ref x slot s => simp only [bare,evaluate]
  | element x i slot s => simp only [bare,evaluate,Expr.evaluate_bare i]
  | call f es slot s => simp only [bare,evaluate,Expr.evaluateAll_bare es]
  | list es s => simp only [bare,evaluate,Expr.evaluateAll_bare es]

theorem Expr.evaluateAll_bare (es : List Expr) :
    Expr.evaluateAll call scope (Expr.bareAll es) = Expr.evaluateAll call scope es := by
  cases es with
  | nil => rfl
  | cons e es => simp only [bareAll,evaluateAll,Expr.evaluate_bare e,Expr.evaluateAll_bare es]
end

lemma Expr.evaluateBoolean_bare (e : Expr) :
    e.bare.evaluateBoolean call scope = e.evaluateBoolean call scope := by
  rw [evaluateBoolean,evaluate_bare,evaluateBoolean]

lemma Expr.evaluateInitial_bare (value : Option Expr) :
    Expr.evaluateInitial call scope (value.map Expr.bare) = Expr.evaluateInitial call scope value := by
  cases value with
  | none => rfl
  | some e => exact e.evaluate_bare call scope

lemma Case.isTaken_bare (v : Value) (value : Option Expr) :
    Case.isTaken call scope v (value.map Expr.bare) = Case.isTaken call scope v value := by
  cases value with
  | none => rfl
  | some e => rw [Option.map_some,isTaken,e.evaluate_bare,isTaken]

mutual
theorem Stmt.execute_bare (scope : ℕ) (s : Stmt) :
    s.bare.execute call rounds scope = s.execute call rounds scope := by
  cases s with
  | expression e => simp only [Stmt.bare,Stmt.execute,Expr.evaluate_bare]
  | declaration x typeName value slot => simp only [Stmt.bare,Stmt.execute,Expr.evaluateInitial_bare]
  | assignment receiver e =>
    cases receiver <;> simp only [Stmt.bare,Expr.bare,Stmt.execute,Expr.evaluate_bare]
  | ifElse c thenBlock elseBlock =>
    simp only [Stmt.bare,Stmt.execute,Expr.evaluateBoolean_bare,Stmt.executeBlock_bare _ thenBlock,
      Stmt.executeBlock_bare _ elseBlock]
  | switch c cs => simp only [Stmt.bare,Stmt.execute,Expr.evaluate_bare,Case.executeFirst_bare _ _ cs]
  | loop c body =>
    simp only [Stmt.bare,Stmt.execute,Expr.evaluateBoolean_bare,Stmt.executeBlock_bare _ body]
  | ret e => simp only [Stmt.bare,Stmt.execute,Expr.evaluate_bare]

theorem Stmt.executeBlock_bare (scope : ℕ) (ss : List Stmt) :
    Stmt.executeBlock call rounds scope (Stmt.bareBlock ss) =
      Stmt.executeBlock call rounds scope ss := by
  cases ss with
  | nil => rfl
  | cons s ss =>
    simp only [Stmt.bareBlock,Stmt.executeBlock,Stmt.execute_bare _ s,Stmt.executeBlock_bare _ ss]

theorem Case.executeFirst_bare (scope : ℕ) (v : Value) (cs : List Case) :
    Case.executeFirst call rounds scope v (Case.bareAll cs) =
      Case.executeFirst call rounds scope v cs := by
  cases cs with
  | nil => rfl
  | cons c cs =>
    obtain ⟨value,body⟩ := c
    simp only [Case.bareAll,Case.executeFirst,Case.isTaken_bare,Stmt.executeBlock_bare _ body,
      Case.executeFirst_bare _ v cs]
end

end

/-- A function goes with the one it was read as. -/
lemma Function.exchange_bare : Function.Exchange fun f f' => f' = f.bare where
  name h := by rw [h]; rfl
  parameters h := by rw [h]; rfl
  body := by
    rintro f _ rfl call hc rounds scope
    have hb : Stmt.executeBlock call rounds scope f.bare.body =
        Stmt.executeBlock call rounds scope f.body := Stmt.executeBlock_bare call rounds scope f.body
    rw [hb]
    exact Stmt.executeBlock_alike hc rounds scope f.body

lemma Run.loadGlobals_bare (fuel : ℕ) (gs : List Global) :
    loadGlobals fuel (gs.map Global.bare) = loadGlobals fuel gs := by
  induction gs with
  | nil => rfl
  | cons g gs ih =>
    simp only [List.map_cons,loadGlobals,ih,Global.bare,Expr.evaluateInitial_bare]

namespace Script

/-- Programs that run alike come to the same value or the same error, and print the same. -/
lemma runProgram_eq {R : Function → Function → Prop} {fuel : ℕ} {p q : Program}
    (h : Run.Alike R (Run.program fuel p) (Run.program fuel q)) (sink : Sink) :
    runProgram fuel p sink = runProgram fuel q sink := by
  have hm : (Machine.new Machine.standardNames sink).Alike R (.new Machine.standardNames sink) :=
    ⟨Machine.standardNames_alike,.ofRoot Machine.standardNames_alike,rfl⟩
  have he := h _ _ hm
  unfold runProgram
  generalize Run.program fuel p (.new Machine.standardNames sink) = r at he
  generalize Run.program fuel q (.new Machine.standardNames sink) = r' at he
  cases he with
  | ok hn => simp only [hn.sink]
  | error hn => simp only [hn.sink]

/-- A program runs as it was read. -/
theorem runProgram_bare (fuel : ℕ) (p : Program) (sink : Sink) :
    runProgram fuel p.bare sink = runProgram fuel p sink := by
  symm
  refine runProgram_eq (Run.program_alike Function.exchange_bare fuel ?_ ?_) sink
  · exact (Run.loadGlobals_bare fuel p.globals).symm
  · exact List.forall₂_map_right_iff.mpr (List.forall₂_same.mpr fun _ _ => rfl)

end Script
end BlockScript
