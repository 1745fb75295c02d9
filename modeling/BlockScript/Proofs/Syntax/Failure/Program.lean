import BlockScript.Proofs.Syntax.Derivation.Accepts
import BlockScript.Proofs.Syntax.Failure.Completion
/-! A failure points at the first token that no program can go on with, or at the end of the last token
if it comes too early. A receiver that cannot be assigned to is noticed at the equals sign after it, and
pointed at itself. -/
namespace BlockScript

namespace ReadError.Cause
variable {cause : ReadError.Cause}

lemma eq_invalidReceiver (h : cause.message = "Invalid assignment receiver.") :
    ∃ start, cause = .invalidReceiver start := by
  cases cause with
  | invalidReceiver start => exact ⟨start,rfl⟩
  | _ => exact absurd h (by decide)

lemma receiver?_eq_none (h : cause.message ≠ "Invalid assignment receiver.") :
    cause.receiver? = none := by
  cases cause with
  | invalidReceiver => exact absurd rfl h
  | _ => rfl

end ReadError.Cause

namespace Reader

/-- Some readable tokens complete these ones to a program. -/
def Completable (us : List Token) : Prop :=
  ∃ vs, (∀ v ∈ vs, v.Readable) ∧ ∃ r, program.run (us ++ vs) = .ok r

variable {us ts rest : List Token} {cause : ReadError.Cause} {e : ReadError}

lemma Viable.completable (h : Viable Program.Spells us) (hs : ∀ t ∈ us, t.Readable) :
    Completable us := by
  obtain ⟨vs,p,hvs,hp⟩ := h
  refine ⟨vs,hvs,(p,[]),run_eq_ok.mpr (program_reads hp fun t ht => ?_)⟩
  exact ((List.mem_append.mp ht).elim (hs t) (hvs t)).sane

/-- No program starts with the tokens that one is not read from, up to the one that is at fault. -/
lemma run_ne_ok {t : Token} {more : List Token}
    (h : program (us ++ t :: more) = .error cause (t :: more)) (vs : List Token)
    (r : Program × List Token) : program.run (us ++ t :: vs) ≠ .ok r := by
  intro hr
  have hsame : program (us ++ t :: vs) = .error cause (t :: vs) :=
    (program_local (us.length + 1)).same us t more vs (.error cause) (Nat.lt_succ_self _) h
  rw [run_eq_ok,hsame] at hr
  cases hr

lemma program_run_error (h : program.run ts = .error e) :
    ∃ rest, program ts = .error e.cause rest ∧
      e.offset = offsetOf (Token.lastStop ts) e.cause rest := by
  unfold run runFrom at h
  cases hp : program ts with
  | ok p rest => rw [hp] at h; cases h
  | error cause rest => rw [hp] at h; cases h; exact ⟨rest,rfl,rfl⟩

lemma offsetOf_plain {stop : ℕ} (h : cause.receiver? = none) :
    offsetOf stop cause rest = (rest.head?.map Token.offset).getD stop := by
  cases cause with
  | invalidReceiver => cases h
  | _ => cases rest <;> rfl

/-- Where a list of tokens is not read as a program, the tokens before the fault can be completed to a
program, and no program starts with the token after them as well, if there is one. The fault is reported at that token, or at
the end of the last one. Only a receiver that cannot be assigned to is reported elsewhere: the fault is at
the equals sign after it and the report at the start of the statement that it begins, where any statement
can stand. -/
theorem program_error_offset (ts : List Token) (hs : ∀ t ∈ ts, t.Readable) (e : ReadError)
    (he : program.run ts = .error e) :
    ∃ before rest, ts = before ++ rest ∧ Completable before ∧
      (∀ t ∈ rest.head?, ∀ vs r, program.run (before ++ t :: vs) ≠ .ok r) ∧
      (e.cause.message ≠ "Invalid assignment receiver." →
        e.offset = (rest.head?.map Token.offset).getD (Token.lastStop ts)) ∧
      (e.cause.message = "Invalid assignment receiver." →
        (∃ o ∈ rest.head?, o.is "=" = true) ∧
        ∃ (outside : List Token) (receiver : Grammar.Level 4),
          before = outside ++ receiver.yield ∧ receiver.isPlace = false ∧
          receiver.yield.head?.map Token.offset = some e.offset ∧
          ∀ s : Grammar.Statement, (∀ t ∈ s.yield, t.Readable) → s.AssignsPlaces →
            Completable (outside ++ s.yield)) := by
  obtain ⟨rest,hp,hoffset⟩ := program_run_error he
  obtain ⟨before,rfl,hstop⟩ := program_completes.stopped ts e.cause rest hp
  rw [List.forall_mem_append] at hs
  refine ⟨before,rest,rfl,hstop.viable.completable hs.1,?_,fun hm => ?_,fun hm => ?_⟩
  · intro t ht
    obtain ⟨more,rfl⟩ := List.head?_eq_some_iff.mp ht
    exact run_ne_ok hp
  · rw [hoffset,offsetOf_plain (ReadError.Cause.receiver?_eq_none hm)]
  · obtain ⟨start,hstart⟩ := ReadError.Cause.eq_invalidReceiver hm
    rw [hstart] at hstop hoffset
    obtain ⟨h,hnone,hfirst,ho,hall⟩ := hstop.misplaced start rfl
    rw [List.forall_mem_append] at hs
    obtain ⟨receiver,rfl,rfl⟩ := h.derivation hs.1.2
    refine ⟨⟨_,rfl,ho⟩,_,receiver,rfl,?_,?_,fun s hr ha => ?_⟩
    · rw [receiver.isPlace_eq,hnone]
      rfl
    · rw [hfirst,hoffset]
      rfl
    · refine (hall s.tree s.yield (s.spells hr ha) hr).completable ?_
      exact List.forall_mem_append.mpr ⟨hs.1.1,hr⟩

/-- The tokens of `FUN f() DO g() = 1; END`. -/
def misplacedTokens : List Token :=
  [⟨.identifier,"FUN",0⟩,⟨.identifier,"f",4⟩,⟨.operator,"(",5⟩,⟨.operator,")",6⟩,
    ⟨.identifier,"DO",8⟩,⟨.identifier,"g",11⟩,⟨.operator,"(",12⟩,⟨.operator,")",13⟩,
    ⟨.operator,"=",15⟩,⟨.integer,"1",17⟩,⟨.operator,";",18⟩,⟨.identifier,"END",20⟩]

theorem program_error_offset_misplaced :
    (∀ t ∈ misplacedTokens, t.Readable) ∧
      program.run misplacedTokens = .error ⟨.invalidReceiver 11,11⟩ ∧
      ∃ before rest, misplacedTokens = before ++ rest ∧ Completable before ∧
        (∃ o ∈ rest.head?, o.is "=" = true ∧ ∀ vs r, program.run (before ++ o :: vs) ≠ .ok r) ∧
        ∃ outside, ∃ receiver : Grammar.Level 4, before = outside ++ receiver.yield ∧
          receiver.yield.head?.map Token.offset = some 11 := by
  have hscan : Token.scan "FUN f() DO g() = 1; END" = .ok misplacedTokens := by decide +kernel
  have hs : ∀ t ∈ misplacedTokens, t.Readable := fun t ht => .inl ⟨_,_,hscan,ht⟩
  have herror : program.run misplacedTokens = .error ⟨.invalidReceiver 11,11⟩ := rfl
  obtain ⟨before,rest,hts,hb,hstuck,_,hreceiver⟩ := program_error_offset misplacedTokens hs _ herror
  obtain ⟨⟨o,ho,his⟩,outside,receiver,hbefore,_,hfirst,_⟩ := hreceiver rfl
  exact ⟨hs,herror,before,rest,hts,hb,⟨o,ho,his,hstuck o ho⟩,outside,receiver,hbefore,hfirst⟩

end Reader
end BlockScript
