import BlockScript.Proofs.Execution.Slots
import BlockScript.Proofs.Soundness.Script
import BlockScript.Proofs.Syntax.Render
import BlockScript.Proofs.Syntax.Slots
import BlockScript.Proofs.Typing.Decides.Program
/-! The text of a checked program, in place of the text it was checked from. -/
namespace BlockScript

namespace Script
variable {source : String} {p t : Program}

/-- A check fills slots and changes nothing else of what was read. -/
lemma bare_of_check (hr : read source = .ok p) (hc : p.check Program.standardNames = .ok t) :
    t.bare = p.bare := by
  refine (Program.filled_of_check Program.standardNames_matched (fun f hf => ?_) hc).2
  obtain ⟨ts,_,hp⟩ := read_eq_ok_iff.mp hr
  obtain ⟨_,_,_,_,hfs⟩ := (Reader.program_ok hp).2
  obtain ⟨us,_,hus⟩ := hfs.exists_of_mem f hf
  exact hus.arity

lemma check_of_read (hr : read source = .ok p) :
    check source = (p.check Program.standardNames).mapError .typing := by
  unfold check
  rw [hr]
  rfl

/-- A checked text stands for a program that is checked. -/
lemma program_check_of_read (hr : read source = .ok p) (h : check source = .ok t) :
    p.check Program.standardNames = .ok t := by
  obtain ⟨_,hp,hc⟩ := check_eq_ok h
  obtain rfl := Except.ok.inj (hr.symm.trans hp)
  exact hc

/-- The text of a checked program stands for the text it was checked from: it is checked to the same
program, slots included, which is written the same way again, and it runs to the same value or the same
error with the same output. So does the program as it was read, without a check. -/
theorem check_render (h : check source = .ok t) :
    check t.render = .ok t ∧ (check t.render).map Program.render = .ok t.render ∧
      ∃ p, read source = .ok p ∧ p.render = t.render ∧ ∀ fuel sink,
        run fuel t.render sink = run fuel source sink ∧
          runProgram fuel p sink = run fuel source sink := by
  obtain ⟨p,hr,hc⟩ := check_eq_ok h
  have hbare := bare_of_check hr hc
  have htext : p.render = t.render := by
    rw [← p.render_bare,← hbare,t.render_bare]
  have hagain : check t.render = .ok t := by
    rw [← htext,check_of_read (read_render (wellFormed_of_read hr)),hc]
    rfl
  refine ⟨hagain,by rw [hagain]; rfl,p,hr,htext,fun fuel sink => ?_⟩
  simp only [run,h,hagain,true_and]
  rw [← runProgram_bare fuel p,← hbare,runProgram_bare]

/-- A zero with a sign and an empty `ELSE`, which are not written again. -/
def unevenText : String :=
  "VAR x = -0; FUN main(): Integer DO IF x == 0 DO x = 2; ELSE END RETURN x; END"

theorem check_render_uneven : ∃ t, check unevenText = .ok t ∧ t.render ≠ unevenText ∧
    check t.render = .ok t ∧ ∃ p, read unevenText = .ok p ∧ ∀ fuel,
      run fuel t.render (.new none true) = run fuel unevenText (.new none true) ∧
        runProgram fuel p (.new none true) = run fuel unevenText (.new none true) := by
  obtain ⟨t,ht,hne⟩ : ∃ t, check unevenText = .ok t ∧ (t.render != unevenText) = true :=
    exists_check (by decide +kernel)
  obtain ⟨hagain,_,p,hp,_,hrun⟩ := check_render ht
  exact ⟨t,ht,bne_iff_ne.mp hne,hagain,p,hp,fun fuel => hrun fuel _⟩

end Script
end BlockScript
