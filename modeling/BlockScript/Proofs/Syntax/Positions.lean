import BlockScript.Proofs.Syntax.Failure.Program
/-! Rules at the positions of a token list. A rule moves forward, and what it comes to is settled by the
tokens up to the one that it stops before. So the statements of a block can be read one at a time, each
with any other tokens behind the one after it. -/
namespace BlockScript.Reader
variable {α β : Type} {rule : Reader α} {ts us : List Token} {p q : ℕ}

/-- What a rule comes to, and the position that it stops at: that of the first token it leaves or, if it
fails, of the one it fails at. The end of a list is a position too. -/
structure Outcome (α : Type) where
  result : Except ReadError α
  position : ℕ

/-- Apply a rule at a position of a token list. -/
def runAt (rule : Reader α) (ts : List Token) (p : ℕ) : Outcome α :=
  match rule (ts.drop p) with
  | .ok a rest => ⟨.ok a,ts.length - rest.length⟩
  | .error cause rest =>
    ⟨.error ⟨cause,offsetOf (Token.lastStop ts) cause rest⟩,ts.length - rest.length⟩

def Outcome.map (f : α → β) (o : Outcome α) : Outcome β := ⟨o.result.map f,o.position⟩

lemma Outcome.map_map {γ : Type} (f : α → β) (g : β → γ) (o : Outcome α) :
    (o.map f).map g = o.map fun a => g (f a) := by
  obtain ⟨_ | _,_⟩ := o <;> rfl

/-- Two lists have the same tokens up to a position, the one there included. The end of a list counts as
a token. -/
def SameThrough (q : ℕ) (ts us : List Token) : Prop := ∀ i ≤ q, ts[i]? = us[i]?

instance : Decidable (SameThrough q ts us) :=
  inferInstanceAs (Decidable (∀ i ≤ q, ts[i]? = us[i]?))

/-- Lists with the same tokens up to a position are one list, or they differ after the token there. -/
lemma SameThrough.eq_or_split (h : SameThrough q ts us) : ts = us ∨ ∃ before t more more',
    before.length = q ∧ ts = before ++ t :: more ∧ us = before ++ t :: more' := by
  have hfirst : ts[0]? = us[0]? := h 0 (Nat.zero_le q)
  induction ts generalizing us q with
  | nil =>
    cases us with
    | nil => exact .inl rfl
    | cons u us => cases hfirst
  | cons t ts ih =>
    cases us with
    | nil => cases hfirst
    | cons u us =>
      cases hfirst
      cases q with
      | zero => exact .inr ⟨[],t,ts,us,rfl,rfl,rfl⟩
      | succ q =>
        have htail : SameThrough q ts us := fun i hi => h (i + 1) (Nat.succ_le_succ hi)
        obtain rfl | ⟨before,s,more,more',rfl,rfl,rfl⟩ := ih htail (htail 0 (Nat.zero_le q))
        · exact .inl rfl
        · exact .inr ⟨t :: before,s,more,more',rfl,rfl,rfl⟩

/-! ### Where rules stop -/

/-- A rule that is applied at a position stops at a position that is not before it. -/
lemma Shrinks.exists_stopAt (h : Shrinks rule) (hp : p ≤ ts.length) :
    ∃ r q, p ≤ q ∧ q ≤ ts.length ∧ rule (ts.drop p) = stopAt r (ts.drop q) := by
  obtain ⟨r,rest,hr⟩ : ∃ r rest, rule (ts.drop p) = stopAt r rest := by
    cases rule (ts.drop p) with
    | ok a rest => exact ⟨.ok a,rest,rfl⟩
    | error cause rest => exact ⟨.error cause,rest,rfl⟩
  obtain ⟨taken,htaken⟩ := h _ r rest hr
  have hlength := congrArg List.length htaken
  rw [List.length_append,List.length_drop] at hlength
  refine ⟨r,p + taken.length,by omega,by omega,?_⟩
  rw [hr,← List.drop_drop,← htaken,List.drop_left]

lemma runAt_eq {r : Except ReadError.Cause α} (hq : q ≤ ts.length)
    (h : rule (ts.drop p) = stopAt r (ts.drop q)) : rule.runAt ts p =
      ⟨r.mapError fun cause => ⟨cause,offsetOf (Token.lastStop ts) cause (ts.drop q)⟩,q⟩ := by
  have hposition : ts.length - (ts.drop q).length = q := by
    rw [List.length_drop]
    omega
  unfold runAt
  rw [h]
  cases r with
  | ok a => exact congrArg (Outcome.mk (.ok a)) hposition
  | error cause => exact congrArg (Outcome.mk (.error _)) hposition

lemma Shrinks.runAt_eq_ok (h : Shrinks rule) (hp : p ≤ ts.length) {a : α} : rule.runAt ts p = ⟨.ok a,q⟩ ↔
    p ≤ q ∧ q ≤ ts.length ∧ rule (ts.drop p) = .ok a (ts.drop q) := by
  refine ⟨fun hr => ?_,fun ⟨_,hq,hr⟩ => runAt_eq (r := .ok a) hq hr⟩
  obtain ⟨r,q',hpq,hq,hstop⟩ := h.exists_stopAt hp
  rw [runAt_eq hq hstop] at hr
  cases r with
  | ok a => cases hr; exact ⟨hpq,hq,hstop⟩
  | error cause => cases hr

/-- A rule that succeeds at a position stops at a later one. -/
def Advances (rule : Reader α) (ts : List Token) (p : ℕ) : Prop :=
  ∀ a q, rule.runAt ts p = ⟨.ok a,q⟩ → p < q

section
variable {P : α → List Token → Prop}

lemma Takes.length_lt (h : Takes rule P) (hpos : ∀ a us, P a us → 0 < us.length) {a : α}
    {mid : List Token} (hr : rule ts = .ok a mid) : mid.length < ts.length := by
  obtain ⟨taken,rfl,ha⟩ := h ts a mid hr
  have := hpos a taken ha
  rw [List.length_append]
  omega

lemma Takes.advances (h : Takes rule P) (hpos : ∀ a us, P a us → 0 < us.length) (hs : Shrinks rule)
    (hp : p ≤ ts.length) : Advances rule ts p := by
  intro a q hr
  obtain ⟨_,_,hr⟩ := (hs.runAt_eq_ok hp).mp hr
  have hlength := h.length_lt hpos hr
  rw [List.length_drop,List.length_drop] at hlength
  omega

end

lemma statement_advances (hp : p ≤ ts.length) : Advances statement ts p :=
  statement_takes.advances (fun _ _ => Stmt.Spells.length_pos) statement_local.shrinks hp

/-! ### What settles an outcome -/

lemma offsetOf_cons (stop stop' : ℕ) (cause : ReadError.Cause) (t : Token) (more more' : List Token) :
    offsetOf stop cause (t :: more) = offsetOf stop' cause (t :: more') := by
  cases cause <;> rfl

/-- Tokens after the one that a rule stops before do not matter. -/
theorem Local.runAt_eq_of_same (h : Local rule) (hp : p ≤ ts.length)
    (hus : SameThrough (rule.runAt ts p).position ts us) : rule.runAt us p = rule.runAt ts p := by
  obtain ⟨r,q,hpq,hq,hr⟩ := h.shrinks.exists_stopAt hp
  rw [runAt_eq hq hr] at hus ⊢
  obtain rfl | ⟨before,t,more,more',rfl,rfl,rfl⟩ := hus.eq_or_split
  · exact runAt_eq hq hr
  · rw [List.drop_append_of_le_length hpq,List.drop_left] at hr
    have hr' : rule ((before ++ t :: more').drop p) =
        stopAt r ((before ++ t :: more').drop before.length) := by
      rw [List.drop_append_of_le_length hpq,List.drop_left]
      exact (h _).same (before.drop p) t more more' r (Nat.lt_succ_self _) hr
    rw [runAt_eq (by simp) hr',List.drop_left,List.drop_left]
    cases r with
    | ok a => rfl
    | error cause =>
      exact congrArg (fun n => Outcome.mk (.error ⟨cause,n⟩) before.length) (offsetOf_cons ..)

/-- A list with the tokens of another one, up to where a rule stops in it, has the position that the rule
was applied at. -/
lemma Shrinks.le_length (h : Shrinks rule) (hus : SameThrough (rule.runAt us p).position us ts)
    (hp : p ≤ ts.length) : p ≤ us.length := by
  by_contra hlt
  have hend : rule.runAt us p = rule.runAt us us.length := by
    unfold runAt
    rw [List.drop_eq_nil_of_le (by omega),List.drop_length]
  obtain ⟨r,q,hle,hq,hr⟩ := h.exists_stopAt (Nat.le_refl us.length)
  rw [hend,runAt_eq hq hr] at hus
  obtain rfl | ⟨before,t,more,more',rfl,rfl,rfl⟩ := hus.eq_or_split
  · exact hlt hp
  · simp only [List.length_append,List.length_cons] at hle
    omega

/-- What a rule comes to in one list it comes to in any other that is the same up to where it stops. -/
lemma Local.runAt_eq_of_other (h : Local rule) (hp : p ≤ ts.length) {o : Outcome α}
    (ho : rule.runAt us p = o) (hus : SameThrough o.position us ts) : rule.runAt ts p = o := by
  subst ho
  exact h.runAt_eq_of_same (h.shrinks.le_length hus hp) hus

/-! ### Rules one after the other -/

lemma runAt_bind_ok {f : α → Reader β} {a : α} (h : Shrinks rule) (hp : p ≤ ts.length)
    (hr : rule.runAt ts p = ⟨.ok a,q⟩) : (rule >>= f).runAt ts p = (f a).runAt ts q := by
  obtain ⟨_,_,hr⟩ := (h.runAt_eq_ok hp).mp hr
  unfold runAt
  rw [bind_ok hr]

lemma runAt_bind_error {f : α → Reader β} {e : ReadError} (hr : rule.runAt ts p = ⟨.error e,q⟩) :
    (rule >>= f).runAt ts p = ⟨.error e,q⟩ := by
  unfold runAt at hr ⊢
  cases hx : rule (ts.drop p) with
  | ok a rest => rw [hx] at hr; cases hr
  | error cause rest =>
    rw [bind_error hx]
    rw [hx] at hr
    cases hr
    rfl

lemma runAt_bind_pure (rule : Reader α) (f : α → β) :
    (rule >>= fun a => pure (f a)).runAt ts p = (rule.runAt ts p).map f := by
  unfold runAt
  cases hx : rule (ts.drop p) with
  | ok a rest => rw [bind_ok hx]; rfl
  | error cause rest => rw [bind_error hx]; rfl

/-- What comes after a rule has to do the same with what the rule leaves. -/
lemma bind_congr_ok {f g : α → Reader β} (h : ∀ a mid, rule ts = .ok a mid → f a mid = g a mid) :
    (rule >>= f) ts = (rule >>= g) ts := by
  cases hx : rule ts with
  | ok a mid => rw [bind_ok hx,bind_ok hx,h a mid hx]
  | error cause mid => rw [bind_error hx,bind_error hx]

lemma bind_congr_first {rule' : Reader α} {f : α → Reader β} (h : rule ts = rule' ts) :
    (rule >>= f) ts = (rule' >>= f) ts := by
  change EStateM.bind rule f ts = EStateM.bind rule' f ts
  unfold EStateM.bind
  rw [h]

/-! ### Blocks -/

/-- The bound of a block does not matter as long as it lasts for the tokens that are left. -/
lemma statements_bound {statement : Reader Stmt} (hs : Takes statement Stmt.Spells)
    {fuel fuel' : List Token} (hf : ts.length ≤ fuel.length) (hf' : ts.length ≤ fuel'.length) :
    statements statement fuel ts = statements statement fuel' ts := by
  induction fuel generalizing fuel' ts with
  | nil =>
    obtain rfl := List.eq_nil_of_length_eq_zero (Nat.le_zero.mp hf)
    cases fuel' <;> rfl
  | cons x ahead ih =>
    cases ts with
    | nil => cases fuel' <;> rfl
    | cons t ts =>
      obtain _ | ⟨x',ahead'⟩ := fuel'
      · simp at hf'
      by_cases ht : t.text ∈ blockEnds
      · rw [statements_nil (closesBlock_cons.mpr ht),statements_nil (closesBlock_cons.mpr ht)]
      -- A statement takes a token, so both bounds still last for what is left after it.
      · rw [statements_step ht,statements_step ht]
        refine bind_congr_ok fun s mid hx => ?_
        have hmid := hs.length_lt (fun _ _ => Stmt.Spells.length_pos) hx
        simp only [List.length_cons] at hmid hf hf'
        exact bind_congr_first (ih (by omega) (by omega))

lemma block_step (hc : ¬ClosesBlock ts) :
    block ts = (do return (← statement) :: (← block) : Reader (List Stmt)) ts := by
  cases ts with
  | nil => exact absurd nofun hc
  | cons t ts =>
    change statements statement (t :: ts) (t :: ts) = _
    rw [statements_step fun ht => hc (closesBlock_cons.mpr ht)]
    refine bind_congr_ok fun s mid hx => bind_congr_first ?_
    have hmid := statement_takes.length_lt (fun _ _ => Stmt.Spells.length_pos) hx
    exact statements_bound statement_takes (Nat.lt_succ_iff.mp hmid) le_rfl

lemma runAt_congr {rule' : Reader α} (h : rule (ts.drop p) = rule' (ts.drop p)) :
    rule.runAt ts p = rule'.runAt ts p := by
  unfold runAt
  rw [h]

lemma runAt_block_closed (hp : p ≤ ts.length) (hc : ClosesBlock (ts.drop p)) :
    block.runAt ts p = ⟨.ok [],p⟩ :=
  runAt_eq (r := .ok []) hp (statements_nil hc)

lemma runAt_block_next (hp : p ≤ ts.length) (hc : ¬ClosesBlock (ts.drop p)) {s : Stmt}
    (hs : statement.runAt ts p = ⟨.ok s,q⟩) :
    block.runAt ts p = (block.runAt ts q).map (s :: ·) := by
  rw [runAt_congr (block_step hc),runAt_bind_ok statement_local.shrinks hp hs]
  exact runAt_bind_pure block (s :: ·)

lemma runAt_block_fails (hc : ¬ClosesBlock (ts.drop p)) {e : ReadError}
    (hs : statement.runAt ts p = ⟨.error e,q⟩) : block.runAt ts p = ⟨.error e,q⟩ := by
  rw [runAt_congr (block_step hc),runAt_bind_error hs]

/-- Statements read one at a time, each where the one before it stops and where no block ends. Each may be
read in a list of its own that has the same tokens up to the one that the statement stops before. -/
inductive OneByOne (ts : List Token) : ℕ → List Stmt → ℕ → Prop
  | none {p : ℕ} : OneByOne ts p [] p
  | next {p q r : ℕ} {s : Stmt} {ss : List Stmt} {us : List Token} (hc : ¬ClosesBlock (ts.drop p))
    (hs : statement.runAt us p = ⟨.ok s,q⟩) (hus : SameThrough q us ts) (h : OneByOne ts q ss r) :
    OneByOne ts p (s :: ss) r

/-- A block goes on after statements that are read one by one. -/
lemma OneByOne.runAt_block {ss : List Stmt} (h : OneByOne ts p ss q) (hp : p ≤ ts.length) :
    q ≤ ts.length ∧ block.runAt ts p = (block.runAt ts q).map (ss ++ ·) := by
  induction h with
  | @none p =>
    refine ⟨hp,?_⟩
    obtain ⟨_ | _,_⟩ := block.runAt ts p <;> rfl
  | @next p q r s ss us hc hs hus _ ih =>
    have hs' : statement.runAt ts p = ⟨.ok s,q⟩ := statement_local.runAt_eq_of_other hp hs hus
    obtain ⟨_,hq,_⟩ := (statement_local.shrinks.runAt_eq_ok hp).mp hs'
    obtain ⟨hr,hb⟩ := ih hq
    refine ⟨hr,?_⟩
    rw [runAt_block_next hp hc hs',hb,Outcome.map_map]
    rfl

lemma OneByOne.runAt_closed {ss : List Stmt} (h : OneByOne ts p ss q) (hp : p ≤ ts.length)
    (hc : ClosesBlock (ts.drop q)) : block.runAt ts p = ⟨.ok ss,q⟩ := by
  obtain ⟨hq,hb⟩ := h.runAt_block hp
  rw [hb,runAt_block_closed hq hc]
  exact congrArg (fun ss => Outcome.mk (.ok ss) q) (List.append_nil ss)

lemma OneByOne.runAt_fails {ss : List Stmt} (h : OneByOne ts p ss q) (hp : p ≤ ts.length)
    (hc : ¬ClosesBlock (ts.drop q)) {e : ReadError} {r : ℕ}
    (he : statement.runAt ts q = ⟨.error e,r⟩) : block.runAt ts p = ⟨.error e,r⟩ := by
  rw [(h.runAt_block hp).2,runAt_block_fails hc he]
  rfl

/-- Statements can be read one by one up to the end of the block or to one that fails. -/
lemma exists_oneByOne (hp : p ≤ ts.length) : ∃ ss q, OneByOne ts p ss q ∧ (ClosesBlock (ts.drop q) ∨
    ¬ClosesBlock (ts.drop q) ∧ ∃ e r, statement.runAt ts q = ⟨.error e,r⟩) := by
  -- Each statement moves on, so the tokens that are left get fewer.
  induction hn : ts.length - p using Nat.strong_induction_on generalizing p with
  | _ n ih =>
    by_cases hc : ClosesBlock (ts.drop p)
    · exact ⟨[],p,.none,.inl hc⟩
    · obtain ⟨r,q,hpq,hq,hr⟩ := statement_local.shrinks.exists_stopAt hp
      cases r with
      | error cause => exact ⟨[],p,.none,.inr ⟨hc,_,q,runAt_eq hq hr⟩⟩
      | ok s =>
        have hs : statement.runAt ts p = ⟨.ok s,q⟩ := runAt_eq hq hr
        have := statement_advances hp s q hs
        obtain ⟨ss,r,hss,hend⟩ := ih (ts.length - q) (by omega) hq rfl
        exact ⟨s :: ss,r,.next hc hs (fun _ _ => rfl) hss,hend⟩

/-- A block is read exactly if its statements are read one by one up to its end. -/
lemma runAt_block_eq_ok (hp : p ≤ ts.length) {ss : List Stmt} :
    block.runAt ts p = ⟨.ok ss,q⟩ ↔ OneByOne ts p ss q ∧ ClosesBlock (ts.drop q) := by
  refine ⟨fun h => ?_,fun ⟨hss,hc⟩ => hss.runAt_closed hp hc⟩
  obtain ⟨ss',m,hss,hc | ⟨hc,e,r,he⟩⟩ := exists_oneByOne hp
  · rw [hss.runAt_closed hp hc] at h
    cases h
    exact ⟨hss,hc⟩
  · rw [hss.runAt_fails hp hc he] at h
    cases h

/-- A block fails exactly where the first of its statements does that is not read. -/
lemma runAt_block_eq_error (hp : p ≤ ts.length) {e : ReadError} :
    block.runAt ts p = ⟨.error e,q⟩ ↔ ∃ ss m, OneByOne ts p ss m ∧ ¬ClosesBlock (ts.drop m) ∧
      statement.runAt ts m = ⟨.error e,q⟩ := by
  refine ⟨fun h => ?_,fun ⟨_,_,hss,hc,he⟩ => hss.runAt_fails hp hc he⟩
  obtain ⟨ss,m,hss,hc | ⟨hc,e',r,he⟩⟩ := exists_oneByOne hp
  · rw [hss.runAt_closed hp hc] at h
    cases h
  · rw [hss.runAt_fails hp hc he] at h
    cases h
    exact ⟨ss,m,hss,hc,he⟩

/-! ### All rules -/

lemma Public.exists_completes (h : Public rule) : ∃ P, Completes rule P := by
  cases h with
  | program => exact ⟨_,program_completes⟩
  | global => exact ⟨_,global_completes⟩
  | function => exact ⟨_,function_completes⟩
  | block => exact ⟨_,block_completes⟩
  | statement => exact ⟨_,statement_completes⟩
  | expression => exact ⟨_,expression_completes⟩

/-- A rule fails for a receiver at an equals sign. -/
lemma Public.equals_of_receiver (h : Public rule) {cause : ReadError.Cause} {rest : List Token}
    (hr : rule ts = .error cause rest) (hc : cause.receiver? ≠ none) :
    ∃ o ∈ rest.head?, o.is "=" = true := by
  obtain ⟨P,hP⟩ := h.exists_completes
  obtain ⟨start,hstart⟩ := Option.ne_none_iff_exists'.mp hc
  obtain ⟨us,rfl,hstop⟩ := hP.stopped ts cause rest hr
  obtain ⟨_,_,_,ho,_⟩ := hstop.misplaced start hstart
  exact ⟨_,rfl,ho⟩

/-- What a rule comes to at a position of a list, and how far it looks. -/
structure LooksOneAhead (rule : Reader α) (ts : List Token) (p : ℕ) : Prop where
  /-- It leaves the tokens from the position on that it stops at. -/
  left : rule.runFrom (Token.lastStop ts) (ts.drop p) =
    (rule.runAt ts p).result.map (·,ts.drop (rule.runAt ts p).position)
  le : p ≤ (rule.runAt ts p).position
  le_length : (rule.runAt ts p).position ≤ ts.length
  /-- A failure is reported at the token that it stops before, or at the end of the last one. Only a
  receiver is reported where it starts; there the rule stops before the equals sign. -/
  fault : ∀ e, (rule.runAt ts p).result = .error e →
    (e.cause.receiver? = none →
      e.offset = (ts[(rule.runAt ts p).position]?.map Token.offset).getD (Token.lastStop ts)) ∧
    (e.cause.receiver? ≠ none → ∃ o ∈ ts[(rule.runAt ts p).position]?, o.is "=" = true)
  /-- Other tokens after the one that it stops before change nothing. -/
  same : ∀ us, SameThrough (rule.runAt ts p).position ts us → rule.runAt us p = rule.runAt ts p

lemma Public.looksOneAhead (h : Public rule) (hp : p ≤ ts.length) : LooksOneAhead rule ts p := by
  obtain ⟨r,q,hpq,hq,hr⟩ := h.shrinks.exists_stopAt hp
  have ho := runAt_eq hq hr
  refine ⟨?_,?_,?_,?_,fun us hus => h.isLocal.runAt_eq_of_same hp hus⟩
  all_goals rw [ho]
  · unfold runFrom
    rw [hr]
    cases r <;> rfl
  · exact hpq
  · exact hq
  · intro e he
    cases r with
    | ok a => cases he
    | error cause =>
      cases he
      rw [← List.head?_drop]
      exact ⟨offsetOf_plain,h.equals_of_receiver hr⟩

/-- A rule that is applied at a position stops at one of the list that is not before it, and at a later one
if it reads a global, a function, a statement or an expression. What it comes to, and where, is settled by
the tokens up to the one that it stops before. So a block is what its statements are when they are read one
at a time, and it fails where the first of them does that is not read. -/
theorem rules_look_one_ahead (ts : List Token) (p : ℕ) (hp : p ≤ ts.length) :
    (∀ {α : Type} {rule : Reader α}, Public rule → LooksOneAhead rule ts p) ∧
    Advances global ts p ∧ Advances function ts p ∧ Advances statement ts p ∧
    Advances expression ts p ∧
    (∀ ss q, block.runAt ts p = ⟨.ok ss,q⟩ ↔ OneByOne ts p ss q ∧ ClosesBlock (ts.drop q)) ∧
    ∀ e q, block.runAt ts p = ⟨.error e,q⟩ ↔ ∃ ss m, OneByOne ts p ss m ∧
      ¬ClosesBlock (ts.drop m) ∧ statement.runAt ts m = ⟨.error e,q⟩ := by
  refine ⟨fun h => h.looksOneAhead hp,?_,?_,statement_advances hp,?_,?_,?_⟩
  · exact global_takes.advances (fun _ _ => Global.Spells.length_pos) global_local.shrinks hp
  · exact function_takes.advances (fun _ _ => Function.Spells.length_pos) function_local.shrinks hp
  · exact expression_takes.advances (fun _ _ => Expr.Spells.length_pos) expression_local.shrinks hp
  · exact fun _ _ => runAt_block_eq_ok hp
  · exact fun _ _ => runAt_block_eq_error hp

/-- The tokens of `DO x = 1; y(); END z`. -/
def blockTokens : List Token :=
  [⟨.identifier,"DO",0⟩,⟨.identifier,"x",3⟩,⟨.operator,"=",5⟩,⟨.integer,"1",7⟩,⟨.operator,";",8⟩,
    ⟨.identifier,"y",10⟩,⟨.operator,"(",11⟩,⟨.operator,")",12⟩,⟨.operator,";",13⟩,
    ⟨.identifier,"END",15⟩,⟨.identifier,"z",19⟩]

/-- The same up to the second statement, which is `y =`. -/
def brokenTokens : List Token := blockTokens.take 6 ++ [⟨.operator,"=",12⟩]

/-- The first statement is read in the broken block and is the one that the whole block starts with. The
broken one fails at the end of its tokens. -/
theorem rules_look_one_ahead_block : 1 ≤ blockTokens.length ∧ 1 ≤ brokenTokens.length ∧
    ∃ s s', statement.runAt brokenTokens 1 = ⟨.ok s,5⟩ ∧ SameThrough 5 brokenTokens blockTokens ∧
      (∀ us, SameThrough 9 blockTokens us → block.runAt us 1 = ⟨.ok [s,s'],9⟩) ∧
      block.runAt brokenTokens 1 = ⟨.error ⟨.expectedExpression,13⟩,7⟩ := by
  have hp : 1 ≤ blockTokens.length := by decide
  have hp' : 1 ≤ brokenTokens.length := by decide
  have hsame : SameThrough 5 brokenTokens blockTokens := by decide
  have hbroken : statement.runAt brokenTokens 5 = ⟨.error ⟨.expectedExpression,13⟩,7⟩ := rfl
  obtain ⟨s,hs⟩ : ∃ s, statement.runAt brokenTokens 1 = ⟨.ok s,5⟩ := ⟨_,rfl⟩
  obtain ⟨s',hs'⟩ : ∃ s, statement.runAt blockTokens 5 = ⟨.ok s,9⟩ := ⟨_,rfl⟩
  obtain ⟨hall,_,_,_,_,hread,_⟩ := rules_look_one_ahead blockTokens 1 hp
  obtain ⟨_,_,_,_,_,_,hfails⟩ := rules_look_one_ahead brokenTokens 1 hp'
  have hblock : block.runAt blockTokens 1 = ⟨.ok [s,s'],9⟩ := (hread _ 9).mpr
    ⟨.next (by decide) hs hsame (.next (by decide) hs' (fun _ _ => rfl) .none),by decide⟩
  refine ⟨hp,hp',s,s',hs,hsame,fun us hus => ?_,?_⟩
  · have h := (hall .block).same us
    rw [hblock] at h
    exact h hus
  · exact (hfails _ 7).mpr ⟨[s],5,.next (by decide) hs (fun _ _ => rfl) .none,by decide,hbroken⟩

end BlockScript.Reader
