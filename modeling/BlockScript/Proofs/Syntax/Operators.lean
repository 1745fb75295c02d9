import BlockScript.Proofs.Lexing.Joined
import BlockScript.Proofs.Syntax.Failure.Lookahead
import BlockScript.Proofs.Syntax.Recast
import Mathlib
/-! Operators between operands. All but two of them are read from their symbols; the symbols of the two
are cut into two tokens, of which the second starts no operand. -/
namespace BlockScript
open Lexer

lemma Token.recasts_moved (n : Nat) : Recasts (moved n) id where
  word h _ := h
  name h := ⟨h,rfl⟩
  operator h := h
  literal h := h

/-! ### Operands -/

namespace Expr

/-- A literal, an expression in parentheses, a variable, an element or a call. -/
def isOperand : Expr → Bool
  | literal .. | group .. | ref .. | element .. | call .. => true
  | binary .. | list .. => false

/-- What is read from all of a text. -/
def WrittenBy (e : Expr) (source : String) : Prop :=
  ∃ ts, Token.scan source = .ok ts ∧ Reader.expression.run ts = .ok (e,[])

variable {k : Nat} {e l r : Expr} {ts : List Token}

/-- What operators join is no operand. -/
lemma Tail.not_operand (h : Tail k l e ts) (hl : l.isOperand = false) : e.isOperand = false := by
  induction hn : ts.length using Nat.strong_induction_on generalizing l ts with
  | h n ih =>
    cases h with
    | nil => exact hl
    | cons _ _ _ h =>
      refine ih _ ?_ h rfl rfl
      rw [← hn,List.length_cons,List.length_append]
      omega

/-- An operand is spelled without operators outside of parentheses. -/
lemma Spells.primary_of_operand (h : e.Spells k ts) (he : e.isOperand = true) : e.Spells 0 ts := by
  induction k generalizing ts with
  | zero => exact h
  | succ k ih =>
    cases h with
    | chain hl h =>
      cases h with
      | nil =>
        rw [List.append_nil]
        exact ih hl
      | cons _ _ _ h =>
        rw [h.not_operand rfl] at he
        cases he

lemma Spells.moved (h : e.Spells k ts) (n : Nat) : e.Spells k (ts.map (Token.moved n)) := by
  have := h.recast (Token.recasts_moved n)
  rwa [e.mapLiterals_id] at this

lemma writtenBy_iff {source : String} :
    e.WrittenBy source ↔ ∃ ts, Token.scan source = .ok ts ∧ e.Spells 4 ts := by
  refine exists_congr fun ts => and_congr_right fun hs => ⟨fun hr => ?_,fun h => ?_⟩
  · obtain ⟨us,hus,h⟩ := Reader.expression_takes ts e [] (Reader.run_eq_ok.mp hr)
    rw [List.append_nil] at hus
    exact hus ▸ h
  · have hread : Reader.expression (ts ++ []) = .ok e [] := Reader.expression_reads h
      (fun t ht => (tokensFrom_lexical hs t ht).sane) ⟨nofun,nofun,nofun⟩
    rw [List.append_nil] at hread
    exact Reader.run_eq_ok.mpr hread

/-- What can be written is written by its text. -/
lemma WrittenBy.render {source : String} (h : e.WrittenBy source) : e.WrittenBy e.render := by
  obtain ⟨ts,hs,h⟩ := writtenBy_iff.mp h
  have hw := (h.wellFormed (tokensFrom_lexical hs)).1
  obtain ⟨us,_,hus,hscan⟩ := hw.writes 4 e.height_le 0 [] nofun
  rw [List.append_nil] at hscan
  refine writtenBy_iff.mpr ⟨us,hscan.trans ?_,hus.1⟩
  rw [tokensFrom]
  exact congrArg Except.ok (List.append_nil us)

end Expr

/-! ### What stands between operands -/

namespace Operator

/-- The symbol is cut into one token. -/
lemma scan_symbol {op : Operator} (h : op ≠ .lessEqual ∧ op ≠ .greaterEqual) :
    Token.scan op.symbol = .ok [⟨.operator,op.symbol,0⟩] := by
  cases op
  case lessEqual => exact absurd rfl h.1
  case greaterEqual => exact absurd rfl h.2
  all_goals cbv

lemma operator?_mark (op : Operator) (off : Nat) :
    Token.operator? ⟨.operator,op.symbol,off⟩ = some op := op.ofSymbol?_symbol

end Operator

namespace Reader
variable {inner : Reader Expr} {cause : ReadError.Cause} {ts rest : List Token}

end Reader

namespace Expr
variable {a b : String} {l r : Expr} {op : Operator}

lemma WrittenBy.binary (ha : l.WrittenBy a) (hb : r.WrittenBy b) (hl : l.isOperand = true)
    (hr : r.isOperand = true) (hop : op ≠ .lessEqual ∧ op ≠ .greaterEqual) :
    (Expr.binary op l r none).WrittenBy (a ++ " " ++ op.symbol ++ " " ++ b) := by
  obtain ⟨ts,hts,hl'⟩ := writtenBy_iff.mp ha
  obtain ⟨us,hus,hr'⟩ := writtenBy_iff.mp hb
  have hscan := Token.scan_append_blank (Token.scan_append_blank hts (Operator.scan_symbol hop)) hus
  refine writtenBy_iff.mpr ⟨_,hscan,?_⟩
  obtain ⟨k,hk,hle⟩ := op.height_eq_succ
  have hleft := (hl'.primary_of_operand hl).lift (Nat.zero_le (k + 1))
  have hright := ((hr'.primary_of_operand hr).lift k.zero_le).moved
    ((a ++ " " ++ op.symbol).utf8ByteSize + 1)
  rw [List.append_assoc]
  exact (hleft.binary (op.operator?_mark _) hk hright).lift hle

end Expr
end BlockScript
