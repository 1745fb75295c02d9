import BlockScript.Execution.Sink
import Mathlib.Tactic.Lemma
/-! What a sink with a limit takes: the first bytes of the text, however the text is cut into
chunks. -/
namespace BlockScript.Sink
variable {s t u : Sink} {k : Nat}

lemma write_none (h : s.room = none) (bytes : List UInt8) :
    s.write bytes = ({ s with taken := bytes.reverse ++ s.taken },true) := by
  simp only [write,h,List.reverseAux_eq]

lemma write_some {room : Nat} (h : s.room = some room) (bytes : List UInt8) :
    s.write bytes =
      (Sink.mk ((bytes.take room).reverse ++ s.taken) (some (room - bytes.length)) s.delivers,
        decide (bytes.length ≤ room)) := by
  simp only [write,h,List.reverseAux_eq]

lemma write_nil (s : Sink) : s.write [] = (s,true) := by
  obtain ⟨taken,room,delivers⟩ := s
  cases room <;> simp [write]

/-- A text of two parts is written part by part, the second if the first was taken as a whole. -/
lemma write_append (s : Sink) (xs ys : List UInt8) : s.write (xs ++ ys) =
    if (s.write xs).2 then (s.write xs).1.write ys else ((s.write xs).1,false) := by
  cases h : s.room with
  | none =>
    rw [write_none h,write_none h,if_pos rfl,write_none (by exact h)]
    simp
  | some room =>
    rw [write_some h,write_some h]
    by_cases hx : xs.length ≤ room
    · have hroom : room - (xs ++ ys).length = room - xs.length - ys.length := by
        rw [List.length_append]
        omega
      have hall : (xs ++ ys).length ≤ room ↔ ys.length ≤ room - xs.length := by
        rw [List.length_append]
        omega
      rw [if_pos (decide_eq_true hx),write_some rfl,List.take_append,List.take_of_length_le hx,
        hroom,decide_eq_decide.mpr hall,List.reverse_append,List.append_assoc]
    · have hroom : room - (xs ++ ys).length = room - xs.length := by
        rw [List.length_append]
        omega
      have hall : ¬ (xs ++ ys).length ≤ room := by
        rw [List.length_append]
        omega
      have hnone : ys.take (room - xs.length) = [] := by
        rw [show room - xs.length = 0 by omega,List.take_zero]
      rw [if_neg (by simpa using hx),List.take_append,hnone,List.append_nil,hroom,
        decide_eq_false hall]

/-- Chunks are written as the text they join to. -/
theorem writeAll_eq (s : Sink) (chunks : List (List UInt8)) :
    s.writeAll chunks = s.write chunks.flatten := by
  induction chunks generalizing s with
  | nil => rw [List.flatten_nil,write_nil,writeAll]
  | cons bytes rest ih =>
    rw [List.flatten_cons,write_append,writeAll]
    cases h : s.write bytes with
    | mk s' complete =>
    cases complete with
    | true => exact ih s'
    | false => rfl

/-- The sink that was given the same text and takes a number of bytes in all. -/
def limit (k : Nat) (s : Sink) : Sink :=
  ⟨(s.written.take k).reverse,some (k - s.taken.length),s.delivers⟩

lemma written_limit (k : Nat) (s : Sink) : (s.limit k).written = s.written.take k :=
  List.reverse_reverse _

lemma limit_new (k : Nat) (delivers : Bool) :
    (new none delivers).limit k = new (some k) delivers := by
  simp [limit,new,written]

lemma length_written (s : Sink) : s.written.length = s.taken.length := List.length_reverse

/-- One sink was given what another was given and possibly more. Neither has a bound. -/
structure Grows (s t : Sink) : Prop where
  unbounded : t.room = none
  delivers : t.delivers = s.delivers
  written : s.written <+: t.written

namespace Grows

lemma refl (h : s.room = none) : s.Grows s := ⟨h,rfl,List.prefix_rfl⟩

lemma trans (h : s.Grows t) (h' : t.Grows u) : s.Grows u :=
  ⟨h'.unbounded,h'.delivers.trans h.delivers,h.written.trans h'.written⟩

lemma length_le (h : s.Grows t) : s.taken.length ≤ t.taken.length := by
  simpa only [length_written] using h.written.length_le

lemma write (h : s.room = none) (bytes : List UInt8) : s.Grows (s.write bytes).1 := by
  rw [write_none h]
  exact ⟨h,rfl,by simp [Sink.written]⟩

/-- Beyond its limit a sink stays as it is. -/
lemma limit_eq (h : s.Grows t) (hk : k ≤ s.taken.length) : t.limit k = s.limit k := by
  obtain ⟨rest,hrest⟩ := h.written
  have hroom : k - t.taken.length = k - s.taken.length := by
    have := h.length_le
    omega
  have htake : t.written.take k = s.written.take k := by
    rw [← hrest,List.take_append_of_le_length (by rwa [length_written])]
  rw [limit,limit,htake,hroom,h.delivers]

end Grows

/-- A limited sink takes what an unlimited one takes up to its limit, and tells whether that was all. -/
lemma write_limit (h : s.room = none) (hk : s.taken.length ≤ k) (bytes : List UInt8) :
    (s.limit k).write bytes =
      ((s.write bytes).1.limit k,decide ((s.write bytes).1.taken.length ≤ k)) := by
  have hwritten : s.written.take k = s.written :=
    List.take_of_length_le (by rwa [length_written])
  have htaken : (s.limit k).taken = s.taken := by
    rw [limit,hwritten]
    exact List.reverse_reverse _
  have hroom : (s.limit k).room = some (k - s.taken.length) := rfl
  rw [write_some hroom,write_none h,htaken]
  have hlen : (bytes.reverse ++ s.taken).length = bytes.length + s.taken.length := by simp
  have hall : bytes.length ≤ k - s.taken.length ↔ bytes.length + s.taken.length ≤ k := by omega
  have htake : ((bytes.reverse ++ s.taken).reverse.take k).reverse =
      (bytes.take (k - s.taken.length)).reverse ++ s.taken := by
    rw [List.reverse_append,List.reverse_reverse,List.take_append,List.reverse_append,
      List.length_reverse]
    exact congrArg _ ((congrArg List.reverse hwritten).trans (List.reverse_reverse _))
  refine Prod.ext ?_ ?_
  · simp only [limit,written,hlen,htake,Sink.mk.injEq,Option.some.injEq,and_true,true_and]
    omega
  · simp only [hlen,hall]

end BlockScript.Sink
