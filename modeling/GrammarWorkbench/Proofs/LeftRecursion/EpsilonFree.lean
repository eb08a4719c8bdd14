import GrammarWorkbench.Proofs.LeftRecursion.Cycles
import GrammarWorkbench.Proofs.Succession
import Mathlib.Data.List.Induction
import Mathlib.Data.Nat.Basic
import Mathlib.Order.Basic

/-!
# Elimination in grammars without empty alternatives

Where no alternative is empty, replacing a leading reference brings the first symbol of the
alternatives put in to the front, and nothing else. So the rules that the grammar came with
keep an order: one that is processed leads to later ones of them only, and to no helper
(`Graded.solid`, `Graded.onward`).

Helpers do vanish, and then a name that was passed before can come to the front again, in
the alternatives of another helper. What saves the order is where helpers stand. An
alternative of a helper either begins with a symbol of the grammar, and then nothing in
front of it can vanish any more, or it is a front followed by the helper itself, and the
front mentions earlier rules only (`HelperForm`). Replacing a reference keeps this
(`HelperForm.of_substituteLeading`). So a helper leads to rules of the grammar or to earlier
helpers, never back; its only recursion is the useless alternative that is its own name, and
it needs no helper in turn.

With that the process ends, after two rounds for each rule at most. A turn takes nothing from
the supply of names, or it is the turn of a rule that the grammar came with and takes one name
(`Graded.roundMintings_cases`). What comes out has no cycle of first symbols
(`eliminateLeftRecursionWith_of_epsilonFree`).
-/

namespace GrammarWorkbench

namespace Grammar

/-- No alternative is empty. -/
def EpsilonFree (g : Grammar) : Prop := ∀ p ∈ g.alternatives, p ≠ Production.epsilon

instance (g : Grammar) : Decidable g.EpsilonFree :=
  inferInstanceAs (Decidable (∀ p ∈ g.alternatives, p ≠ Production.epsilon))

/-- Whether a symbol is one of the grammar: no non-terminal, or one with a rule. -/
def isOwn (g : Grammar) (s : Symbol) : Bool := s.nonTerminal?.all g.isRule

/-- **An alternative that begins with a symbol of the grammar.** -/
def Solid (g : Grammar) (p : Production) : Prop :=
  ∃ s rest, p.body = s :: rest ∧ g.isOwn s = true

variable {g : Grammar} {p : Production} {name : String}

@[simp] theorem isOwn_nonTerminal : g.isOwn (.nonTerminal name) = true ↔ name ∈ g.ruleNames := by
  unfold isOwn
  simp [Symbol.nonTerminal?]

theorem Solid.append (h : g.Solid p) (q : Production) : g.Solid (p ++ q) := by
  obtain ⟨s, rest, hbody, hs⟩ := h
  exact ⟨s, rest ++ q.body, by rw [Production.body_append, hbody]; rfl, hs⟩

theorem Solid.push (h : g.Solid p) (helper : String) :
    g.Solid (p.push (.nonTerminal helper)) := by
  obtain ⟨s, rest, hbody, hs⟩ := h
  exact ⟨s, rest ++ [.nonTerminal helper], by rw [Production.body_push_nonTerminal, hbody]; rfl,
    hs⟩

/-- A solid alternative leads to rules of the grammar only. -/
theorem Solid.mem_ruleNames (h : g.Solid p) (hlead : p.startsWith name = true) :
    name ∈ g.ruleNames := by
  obtain ⟨s, rest, hbody, hs⟩ := h
  obtain ⟨tail, htail⟩ := Production.startsWith_iff.mp hlead
  obtain ⟨rfl, -⟩ := List.cons.inj (hbody.symm.trans htail)
  exact isOwn_nonTerminal.mp hs

/-- The alternatives of a solid rule decide what a reference to it brings to the front. -/
theorem Solid.startsWith_append (h : g.Solid p) {q : Production}
    (hlead : (p ++ q).startsWith name = true) : p.startsWith name = true := by
  obtain ⟨s, rest, hbody, -⟩ := h
  obtain ⟨tail, htail⟩ := Production.startsWith_iff.mp hlead
  rw [Production.body_append, hbody, List.cons_append] at htail
  obtain ⟨rfl, -⟩ := List.cons.inj htail
  exact Production.startsWith_iff.mpr ⟨rest, hbody⟩

/-- **Without empty alternatives every alternative is solid**, if no name lacks a rule. -/
theorem EpsilonFree.solid (hfree : g.EpsilonFree) (hclosed : g.Closed)
    (hp : p ∈ g.productions name) : g.Solid p := by
  have halternative : p ∈ g.alternatives := mem_alternatives.mpr ⟨name, hp⟩
  cases hbody : p.body with
  | nil => exact absurd (Production.ext hbody) (hfree p halternative)
  | cons s rest =>
    refine ⟨s, rest, hbody, ?_⟩
    cases s with
    | nonTerminal inner =>
      exact isOwn_nonTerminal.mpr
        (hclosed inner ⟨p, halternative, hbody ▸ List.mem_cons_self⟩)
    | terminal text => rfl
    | epsilon => rfl
    | endMark => rfl

/-- The order in which the rules of the grammar are processed. -/
def eliminationOrder (g : Grammar) : List String :=
  g.ruleNames.mergeSort fun a b => decide (a ≤ b)

theorem mem_eliminationOrder : name ∈ g.eliminationOrder ↔ name ∈ g.ruleNames :=
  List.mem_mergeSort

theorem length_eliminationOrder (g : Grammar) :
    g.eliminationOrder.length = g.ruleNames.length :=
  List.length_mergeSort g.ruleNames

end Grammar

namespace Elimination

variable {g : Grammar} {s : Elimination} {left name inner : String} {rest : List String}
  {p q : Production}

/-! ## The form of alternatives -/

/-- **What an alternative of a helper looks like.** -/
inductive HelperForm (g : Grammar) (s : Elimination) (helper : String) (p : Production) :
    Prop where
  /-- It lets the helper vanish. -/
  | empty (h : p.body = [])
  /-- It begins with a symbol of the grammar. -/
  | solid (h : g.Solid p)
  /-- It ends with the helper, and in front of it stand earlier rules only. -/
  | trailing (front : List Symbol) (h : p.body = front ++ [.nonTerminal helper])
      (hfront : ∀ inner, .nonTerminal inner ∈ front → s.place inner < s.place helper)

/-- **What a helper puts in front of a front is a front**, of any helper that comes later. -/
theorem HelperForm.append {helper : String} {front : List Symbol}
    (hp : HelperForm g s inner p) (hlt : s.place inner < s.place helper)
    (hq : q.body = front ++ [.nonTerminal helper])
    (hfront : ∀ name, .nonTerminal name ∈ front → s.place name < s.place helper) :
    HelperForm g s helper (p ++ q) := by
  cases hp with
  | empty hnil =>
    exact HelperForm.trailing front (by rw [Production.body_append, hnil, hq]; rfl) hfront
  | solid hsolid => exact HelperForm.solid (hsolid.append q)
  | trailing before hbefore hless =>
    refine HelperForm.trailing (before ++ .nonTerminal inner :: front) ?_ (fun name hname => ?_)
    · rw [Production.body_append, hbefore, hq]
      simp
    · rcases List.mem_append.mp hname with hname | hname
      · exact (hless name hname).trans hlt
      · rcases List.mem_cons.mp hname with hname | hname
        · rw [Symbol.nonTerminal.inj hname]
          exact hlt
        · exact hfront name hname

/-- **What is known between two rounds** of the elimination of a grammar without empty
alternatives. -/
structure Graded (g : Grammar) (s : Elimination) : Prop where
  /-- Every rule is processed or pending. -/
  ordered : s.Ordered
  /-- Every non-terminal has a rule. -/
  closed : s.grammar.Closed
  /-- The rules of the grammar come first, then the helpers. -/
  originals_first : ∃ helpers, s.order = g.eliminationOrder ++ helpers
  /-- There are no more helpers than rules of the grammar that had their turn. -/
  length_le : s.order.length ≤ g.ruleNames.length + min s.processed.length g.ruleNames.length
  /-- Alternatives of rules of the grammar begin with a symbol of the grammar. -/
  solid : ∀ name ∈ g.ruleNames, ∀ p ∈ s.grammar.productions name, g.Solid p
  /-- A processed rule of the grammar leads to later rules. -/
  onward : ∀ name ∈ g.ruleNames, name ∈ s.processed → ∀ inner,
    s.grammar.LeadsTo name inner → s.place name < s.place inner
  /-- Alternatives of helpers have the form of helpers. -/
  form : ∀ name, name ∉ g.ruleNames → ∀ p ∈ s.grammar.productions name, HelperForm g s name p
  /-- A processed rule does not lead to itself. -/
  not_self : ∀ name, ¬ s.ProcessedLeadsTo name name

namespace Graded

variable (h : Graded g s)
include h

/-- **The rules of the grammar are those with the first places.** -/
theorem mem_ruleNames_iff : name ∈ g.ruleNames ↔ s.place name < g.ruleNames.length := by
  obtain ⟨helpers, horder⟩ := h.originals_first
  unfold place
  rw [horder, ← g.mem_eliminationOrder, ← g.length_eliminationOrder]
  by_cases hname : name ∈ g.eliminationOrder
  · rw [List.idxOf_append_of_mem hname]
    exact iff_of_true hname (List.idxOf_lt_length_iff.mpr hname)
  · rw [List.idxOf_append_of_notMem hname]
    exact iff_of_false hname (by omega)

/-- While rules of the grammar are processed, no helper has been processed. -/
theorem processed_of_original (hpending : s.pending = left :: rest) (hleft : left ∈ g.ruleNames)
    (hname : name ∈ s.processed) : name ∈ g.ruleNames := by
  rw [h.mem_ruleNames_iff] at hleft ⊢
  rw [place_of_turn h.ordered hpending] at hleft
  exact (mem_processed_iff.mp hname).trans hleft

/-- Replacing references to processed rules of the grammar keeps alternatives solid. -/
theorem solid_foldl_substituteLeading {inners : List String} {ps : List Production}
    (hinners : ∀ inner ∈ inners, inner ∈ g.ruleNames) (hps : ∀ p ∈ ps, g.Solid p) :
    ∀ q ∈ inners.foldl s.grammar.substituteLeading ps, g.Solid q := by
  induction inners generalizing ps with
  | nil => exact hps
  | cons inner inners ih =>
    refine ih (fun name hname => hinners name (List.mem_cons_of_mem _ hname)) (fun q hq => ?_)
    rw [Grammar.substituteLeading_eq, Production.mem_expandLeading] at hq
    rcases hq with ⟨hq, -⟩ | ⟨p, -, -, beta, hbeta, rfl⟩
    · exact hps q hq
    · exact (h.solid inner (hinners inner List.mem_cons_self) beta hbeta).append _

/-- **No replaced reference comes back to the front**, if each rule leads to later ones of
the list only. -/
theorem not_startsWith_foldl_substituteLeading {inners : List String} {ps : List Production}
    (hinners : ∀ inner ∈ inners, inner ∈ g.ruleNames)
    (honward : ∀ before inner after, inners = before ++ inner :: after →
      ∀ name, s.grammar.LeadsTo inner name → name ∉ before ++ [inner]) :
    ∀ q ∈ inners.foldl s.grammar.substituteLeading ps, ∀ name ∈ inners,
      q.startsWith name = false := by
  induction inners using List.reverseRecOn with
  | nil => exact fun _ _ _ hname => absurd hname List.not_mem_nil
  | append_singleton inners last ih =>
    intro q hq name hname
    rw [List.foldl_append, List.foldl_cons, List.foldl_nil, Grammar.substituteLeading_eq,
      Production.mem_expandLeading] at hq
    rcases hq with ⟨hq, hnot⟩ | ⟨p, -, -, beta, hbeta, rfl⟩
    · rcases List.mem_append.mp hname with hname | hname
      · refine ih (fun inner hinner => hinners inner (List.mem_append_left _ hinner)) ?_ q hq
          name hname
        intro before inner after hsplit
        exact honward before inner (after ++ [last]) (by rw [hsplit, List.append_assoc]; rfl)
      · rw [List.mem_singleton.mp hname]
        exact hnot
    · have hlast : last ∈ g.ruleNames :=
        hinners last (List.mem_append_right _ List.mem_cons_self)
      refine Bool.eq_false_iff.mpr (fun hlead => ?_)
      have hbetalead := (h.solid last hlast beta hbeta).startsWith_append hlead
      exact honward inners last [] rfl name ⟨beta, hbeta, hbetalead⟩ hname

/-! ## The turn of a rule of the grammar -/

section Original

variable (hpending : s.pending = left :: rest) (hleft : left ∈ g.ruleNames)
include hpending hleft

theorem solid_of_mem_expanded (hq : q ∈ s.expanded left) : g.Solid q :=
  h.solid_foldl_substituteLeading (fun _ => h.processed_of_original hpending hleft)
    (h.solid left hleft) q hq

/-- **The expansion leads to no processed rule.** -/
theorem not_startsWith_of_mem_expanded (hq : q ∈ s.expanded left) (hname : name ∈ s.processed) :
    q.startsWith name = false := by
  refine h.not_startsWith_foldl_substituteLeading
    (fun _ => h.processed_of_original hpending hleft) ?_ q hq name hname
  intro before inner after hsplit name hlead hname
  have hprocessed : inner ∈ s.processed := by
    rw [hsplit]
    exact List.mem_append_right _ List.mem_cons_self
  have hlt := h.onward inner (h.processed_of_original hpending hleft hprocessed) hprocessed
    name hlead
  exact Nat.not_le_of_lt hlt (place_le_of_split h.ordered hsplit hname)

end Original

/-! ## The turn of a helper -/

section Helper

variable (hpending : s.pending = left :: rest) (hleft : left ∉ g.ruleNames)
include hpending

/-- **Replacing a reference to a processed rule keeps the form.** If the rule is a helper
that vanishes, what is left of the front is a front; and what a helper puts in is earlier
than the helper. -/
theorem form_of_mem_substituteLeading {ps : List Production} (hinner : inner ∈ s.processed)
    (hps : ∀ p ∈ ps, HelperForm g s left p) :
    ∀ q ∈ s.grammar.substituteLeading ps inner, HelperForm g s left q := by
  have hlt : s.place inner < s.place left := by
    rw [place_of_turn h.ordered hpending]
    exact mem_processed_iff.mp hinner
  intro q hq
  rw [Grammar.substituteLeading_eq, Production.mem_expandLeading] at hq
  rcases hq with ⟨hq, -⟩ | ⟨p, hp, hlead, beta, hbeta, rfl⟩
  · exact hps q hq
  · by_cases howned : inner ∈ g.ruleNames
    · exact HelperForm.solid ((h.solid inner howned beta hbeta).append _)
    · have hbody := Production.body_eq_of_startsWith hlead
      cases hps p hp with
      | empty hnil => rw [hnil] at hbody; exact absurd hbody (by simp)
      | solid hsolid => exact absurd (hsolid.mem_ruleNames hlead) howned
      | trailing front hfront hearlier =>
        rw [hfront] at hbody
        rcases List.append_eq_cons_iff.mp hbody with ⟨-, hself⟩ | ⟨tail, rfl, htail⟩
        · rw [Symbol.nonTerminal.inj (List.cons.inj hself).1] at hlt
          exact absurd hlt (Nat.lt_irrefl _)
        · exact (h.form inner howned beta hbeta).append hlt htail
            (fun name hname => hearlier name (List.mem_cons_of_mem _ hname))

include hleft

theorem form_of_mem_expanded (hq : q ∈ s.expanded left) : HelperForm g s left q := by
  have key : ∀ inners : List String, (∀ inner ∈ inners, inner ∈ s.processed) →
      ∀ ps : List Production, (∀ p ∈ ps, HelperForm g s left p) →
        ∀ q ∈ inners.foldl s.grammar.substituteLeading ps, HelperForm g s left q := by
    intro inners
    induction inners with
    | nil => exact fun _ _ hps => hps
    | cons inner inners ih =>
      intro hinners ps hps
      refine ih (fun name hname => hinners name (List.mem_cons_of_mem _ hname)) _ ?_
      exact h.form_of_mem_substituteLeading hpending (hinners inner List.mem_cons_self) hps
  exact key s.processed (fun _ hinner => hinner) _ (h.form left hleft) q hq

/-- **A helper needs no helper**: its only recursion is useless. -/
theorem recursiveTails_eq_nil :
    Production.recursiveTails left (s.expanded left) = [] := by
  refine List.eq_nil_iff_forall_not_mem.mpr (fun alpha halpha => ?_)
  obtain ⟨hne, p, hp, hlead, rfl⟩ := Production.mem_recursiveTails.mp halpha
  have hbody := Production.body_eq_of_startsWith hlead
  cases h.form_of_mem_expanded hpending hleft hp with
  | empty hnil => rw [hnil] at hbody; exact absurd hbody (by simp)
  | solid hsolid => exact hleft (hsolid.mem_ruleNames hlead)
  | trailing front hfront hearlier =>
    rw [hfront] at hbody
    rcases List.append_eq_cons_iff.mp hbody with ⟨-, hself⟩ | ⟨tail, rfl, -⟩
    · have htail : (p.suffix 1).body = [] := (List.cons.inj hself).2.symm
      rw [Production.isEpsilon, htail] at hne
      exact absurd hne (by simp)
    · exact Nat.lt_irrefl _ (hearlier left List.mem_cons_self)

end Helper

/-! ## One round -/

omit h in
/-- Later rounds leave the form as it is. -/
theorem form_round (hs : s.Ordered) (hname : name ∈ s.grammar.ruleNames)
    (hform : HelperForm g s name p) : HelperForm g s.round name p := by
  cases hform with
  | empty hnil => exact HelperForm.empty hnil
  | solid hsolid => exact HelperForm.solid hsolid
  | trailing front hfront hearlier =>
    refine HelperForm.trailing front hfront (fun inner hinner => ?_)
    have hlt := hearlier inner hinner
    rw [place_round hs (mem_ruleNames_of_place_lt hs hlt), place_round hs hname]
    exact hlt

/-- With recursion it is the turn of a rule of the grammar. -/
theorem mem_ruleNames_of_tails_ne_nil (hpending : s.pending = left :: rest)
    (htails : Production.recursiveTails left (s.expanded left) ≠ []) : left ∈ g.ruleNames := by
  by_contra hleft
  exact htails (h.recursiveTails_eq_nil hpending hleft)

theorem ruleNames_subset (hname : name ∈ g.ruleNames) : name ∈ s.grammar.ruleNames := by
  obtain ⟨helpers, horder⟩ := h.originals_first
  refine h.ordered.mem_iff.mpr (List.mem_append.mp ?_)
  show name ∈ s.order
  rw [horder]
  exact List.mem_append_left _ (Grammar.mem_eliminationOrder.mpr hname)

theorem helper_not_mem_ruleNames : s.helper ∉ g.ruleNames :=
  fun hmem => s.helper_not_mem (h.ruleNames_subset hmem)

/-- Alternatives of rules of the grammar stay solid. -/
theorem solid_round (hpending : s.pending = left :: rest) (hname : name ∈ g.ruleNames)
    (hq : q ∈ s.round.grammar.productions name) : g.Solid q := by
  cases origin_of_mem_round h.ordered hpending hq with
  | kept _ hq => exact h.solid name hname q hq
  | expanded hq _ => exact h.solid_of_mem_expanded hpending hname hq
  | handing hp _ _ => exact (h.solid_of_mem_expanded hpending hname hp).push _
  | tail _ => exact absurd hname h.helper_not_mem_ruleNames
  | stop _ => exact absurd hname h.helper_not_mem_ruleNames

/-- A rule of the grammar leads to rules of the grammar. -/
theorem mem_ruleNames_of_leadsTo_round (hpending : s.pending = left :: rest)
    (hname : name ∈ g.ruleNames) (hlead : s.round.grammar.LeadsTo name inner) :
    inner ∈ g.ruleNames := by
  obtain ⟨p, hp, hlead⟩ := hlead
  exact (h.solid_round hpending hname hp).mem_ruleNames hlead

/-- The rule of the round joins those that lead to later ones. -/
theorem onward_round (hpending : s.pending = left :: rest) (hname : name ∈ g.ruleNames)
    (hprocessed : name ∈ s.round.processed) (hlead : s.round.grammar.LeadsTo name inner) :
    s.round.place name < s.round.place inner := by
  have hinner := h.mem_ruleNames_of_leadsTo_round hpending hname hlead
  rw [place_round h.ordered (h.ruleNames_subset hname),
    place_round h.ordered (h.ruleNames_subset hinner)]
  rcases (processedLeadsTo_round_iff h.ordered hpending name inner).mp ⟨hprocessed, hlead⟩ with
    hold | ⟨rfl, hlead⟩
  · exact h.onward name hname hold.1 inner hold.2
  · obtain ⟨hne, p, hp, hlead⟩ :=
      (leadsTo_round_iff h.ordered hpending (h.ruleNames_subset hinner)).mp hlead
    rw [place_of_turn h.ordered hpending]
    -- a name that is not processed and not the rule itself comes later
    have hnot : inner ∉ s.processed := fun hmem => by
      rw [h.not_startsWith_of_mem_expanded hpending hname hp hmem] at hlead
      exact absurd hlead (by simp)
    rw [mem_processed_iff] at hnot
    refine Nat.lt_of_le_of_ne (Nat.le_of_not_lt hnot) (fun heq => hne ?_)
    rw [← place_of_turn h.ordered hpending] at heq
    have hmem : name ∈ s.order := List.mem_append.mpr
      (h.ordered.mem_iff.mp (h.ruleNames_subset hname))
    exact ((List.idxOf_inj hmem).mp heq).symm

/-- Alternatives of helpers keep their form, and those of the new helper have it. -/
theorem helperForm_round (hpending : s.pending = left :: rest) (hname : name ∉ g.ruleNames)
    (hq : q ∈ s.round.grammar.productions name) : HelperForm g s.round name q := by
  cases origin_of_mem_round h.ordered hpending hq with
  | kept _ hq =>
    exact form_round h.ordered (Grammar.mem_ruleNames_of_mem hq) (h.form name hname q hq)
  | expanded hq _ =>
    exact form_round h.ordered (h.ordered.mem_ruleNames hpending)
      (h.form_of_mem_expanded hpending hname hq)
  | handing _ _ htails => exact absurd (h.mem_ruleNames_of_tails_ne_nil hpending htails) hname
  | @tail alpha halpha =>
    have htails : Production.recursiveTails left (s.expanded left) ≠ [] :=
      List.ne_nil_of_mem halpha
    refine HelperForm.trailing alpha.body (Production.body_push_nonTerminal alpha _)
      (fun inner hinner => ?_)
    obtain ⟨-, p, hp, -, rfl⟩ := Production.mem_recursiveTails.mp halpha
    refine place_lt_place_helper h.ordered hpending htails (h.closed inner ?_)
    exact uses_of_mem_expanded hp (Production.mem_body_suffix hinner)
  | stop _ => exact HelperForm.empty Production.body_epsilon

/-- A helper more needs one more rule of the grammar that had its turn. -/
theorem length_le_round (hpending : s.pending = left :: rest) :
    s.round.order.length
      ≤ g.ruleNames.length + min s.round.processed.length g.ruleNames.length := by
  have hold := h.length_le
  rw [order_round h.ordered hpending, processed_round hpending, List.length_append,
    List.length_append, List.length_singleton]
  split
  · rw [List.length_nil]
    omega
  · next htails =>
    have hturn := h.mem_ruleNames_iff.mp (h.mem_ruleNames_of_tails_ne_nil hpending htails)
    rw [place_of_turn h.ordered hpending] at hturn
    rw [List.length_singleton]
    omega

/-- **A round keeps everything that is known.** -/
theorem round : Graded g s.round := by
  cases hpending : s.pending with
  | nil => rw [round_of_finished hpending]; exact h
  | cons left rest =>
    refine ⟨ordered_round h.ordered, closed_round h.ordered h.closed, ?_,
      h.length_le_round hpending, fun name hname p hp => h.solid_round hpending hname hp,
      fun name hname hprocessed inner hlead => h.onward_round hpending hname hprocessed hlead,
      fun name hname p hp => h.helperForm_round hpending hname hp,
      not_processedLeadsTo_self_round h.ordered h.not_self⟩
    obtain ⟨helpers, horder⟩ := h.originals_first
    rw [order_round h.ordered hpending, horder, List.append_assoc]
    exact ⟨_, rfl⟩

theorem rounds (n : Nat) : Graded g (rounds n s) := by
  induction n generalizing s with
  | zero => exact h
  | succ n ih => exact ih h.round

/-! ## The end of the process -/

/-- **Every round takes work away**: a pending rule, or a rule of the grammar that may still
bring in a helper. -/
theorem workload_round_lt (hpending : s.pending = left :: rest) :
    s.round.pending.length + (g.ruleNames.length - s.round.processed.length)
      < s.pending.length + (g.ruleNames.length - s.processed.length) := by
  have hlength := congrArg List.length (order_round h.ordered hpending)
  unfold order at hlength
  rw [processed_round hpending, hpending] at hlength ⊢
  simp only [List.length_append, List.length_cons, List.length_nil] at hlength ⊢
  split at hlength
  · rw [List.length_nil] at hlength
    omega
  · next htails =>
    have hturn := h.mem_ruleNames_iff.mp (h.mem_ruleNames_of_tails_ne_nil hpending htails)
    rw [place_of_turn h.ordered hpending] at hturn
    rw [List.length_singleton] at hlength
    omega

theorem pending_rounds_eq_nil {n : Nat}
    (hn : s.pending.length + (g.ruleNames.length - s.processed.length) ≤ n) :
    (Elimination.rounds n s).pending = [] := by
  induction n generalizing s with
  | zero => exact List.eq_nil_of_length_eq_zero (show s.pending.length = 0 by omega)
  | succ n ih =>
    cases hpending : s.pending with
    | nil => rw [rounds_of_finished hpending]; exact hpending
    | cons left rest =>
      have hless := h.workload_round_lt hpending
      exact ih h.round (by omega)

end Graded

/-- **The rank of a rule**: the rules of the grammar from the last to the first, and then
the helpers in their order. -/
def rank (g : Grammar) (s : Elimination) (name : String) : Nat :=
  if name ∈ g.ruleNames then g.ruleNames.length - 1 - s.place name else s.place name

namespace Graded

variable (h : Graded g s)
include h

/-- A rule that comes later has the lower rank, if both are rules of the grammar. -/
theorem rank_lt_of_place_lt (hname : name ∈ g.ruleNames) (hinner : inner ∈ g.ruleNames)
    (hlt : s.place name < s.place inner) : rank g s inner < rank g s name := by
  unfold rank
  rw [if_pos hname, if_pos hinner]
  have := h.mem_ruleNames_iff.mp hinner
  omega

/-- A helper ranks above the rules of the grammar and above earlier helpers. -/
theorem rank_lt_of_helper (hname : name ∉ g.ruleNames)
    (hinner : inner ∈ g.ruleNames ∨ s.place inner < s.place name) :
    rank g s inner < rank g s name := by
  have hplace : g.ruleNames.length ≤ s.place name :=
    Nat.le_of_not_lt (fun hlt => hname (h.mem_ruleNames_iff.mpr hlt))
  unfold rank
  rw [if_neg hname]
  split
  · next howned =>
    have := h.mem_ruleNames_iff.mp howned
    omega
  · next hother => exact hinner.resolve_left hother

/-- **When nothing is pending, every rule leads down in rank.** -/
theorem rank_lt_of_leadsTo (hpending : s.pending = []) (hlead : s.grammar.LeadsTo name inner) :
    rank g s inner < rank g s name := by
  obtain ⟨p, hp, hstarts⟩ := hlead
  have hprocessed : name ∈ s.processed := by
    have hrule := h.ordered.mem_iff.mp (Grammar.mem_ruleNames_of_mem hp)
    rw [hpending] at hrule
    exact hrule.resolve_right List.not_mem_nil
  by_cases hname : name ∈ g.ruleNames
  · refine h.rank_lt_of_place_lt hname ((h.solid name hname p hp).mem_ruleNames hstarts) ?_
    exact h.onward name hname hprocessed inner ⟨p, hp, hstarts⟩
  · have hbody := Production.body_eq_of_startsWith hstarts
    refine h.rank_lt_of_helper hname ?_
    cases h.form name hname p hp with
    | empty hnil => rw [hnil] at hbody; exact absurd hbody (by simp)
    | solid hsolid => exact Or.inl (hsolid.mem_ruleNames hstarts)
    | trailing front hfront hearlier =>
      rw [hfront] at hbody
      rcases List.append_eq_cons_iff.mp hbody with ⟨-, hself⟩ | ⟨tail, rfl, -⟩
      · -- the helper alone would be a useless alternative
        obtain rfl := Symbol.nonTerminal.inj (List.cons.inj hself).1
        exact absurd ⟨hprocessed, p, hp, hstarts⟩ (h.not_self name)
      · exact Or.inr (hearlier inner List.mem_cons_self)

theorem not_leftRecursive (hpending : s.pending = []) : ¬ s.grammar.LeftRecursive := by
  rintro ⟨name, hcycle⟩
  have hdown : ∀ a b, Relation.TransGen s.grammar.LeadsTo a b → rank g s b < rank g s a := by
    intro a b hpath
    induction hpath with
    | single hstep => exact h.rank_lt_of_leadsTo hpending hstep
    | tail _ hstep ih => exact (h.rank_lt_of_leadsTo hpending hstep).trans ih
  exact Nat.lt_irrefl _ (hdown name name hcycle)

end Graded

/-- Before the first round everything is known. -/
theorem graded_start (hfree : g.EpsilonFree) (hclosed : g.Closed) (names : NameAllocator) :
    Graded g (start g names) where
  ordered := ordered_start g names
  closed := hclosed
  originals_first := ⟨[], (List.append_nil _).symm⟩
  length_le := by
    show g.eliminationOrder.length ≤ _
    rw [g.length_eliminationOrder]
    exact Nat.le_add_right _ _
  solid := fun _ _ _ hp => hfree.solid hclosed hp
  onward := fun _ _ hprocessed => absurd hprocessed List.not_mem_nil
  form := fun _ _ _ hp => HelperForm.solid (hfree.solid hclosed hp)
  not_self := fun _ hself => absurd hself.1 List.not_mem_nil

/-! ## Names given out -/

/-- **What a turn takes from the supply**: nothing, or one name if it is the turn of a rule of
the grammar. -/
theorem Graded.roundMintings_cases (h : Graded g s) (hpending : s.pending = left :: rest) :
    s.roundMintings = [] ∧ s.round.names = s.names
      ∨ left ∈ g.ruleNames
        ∧ ∃ m, s.roundMintings = [m] ∧ GivesOut s.names [m] s.round.names := by
  by_cases htails : Production.recursiveTails left (s.expanded left) = []
  · exact Or.inl ⟨roundMintings_of_tails_eq_nil hpending htails,
      names_round_of_tails_eq_nil hpending htails⟩
  · have hminted := roundMintings_of_tails_ne_nil hpending htails
    exact Or.inr ⟨h.mem_ruleNames_of_tails_ne_nil hpending htails, _, hminted,
      hminted ▸ givesOut_round h.ordered⟩

end Elimination

namespace Grammar

variable {g : Grammar}

/-- An elimination of a grammar without empty alternatives ends after two rounds for each
rule. -/
theorem EpsilonFree.exists_rounds (hfree : g.EpsilonFree) (hclosed : g.Closed)
    (names : NameAllocator) : ∃ n ≤ 2 * g.ruleNames.length,
      (Elimination.rounds n (Elimination.start g names)).pending = []
        ∧ g.eliminateLeftRecursionWith names
          = .ok (Elimination.rounds n (Elimination.start g names)) := by
  have hpending : (Elimination.rounds (2 * g.ruleNames.length)
      (Elimination.start g names)).pending = [] := by
    refine (Elimination.graded_start hfree hclosed names).pending_rounds_eq_nil ?_
    show g.eliminationOrder.length + (g.ruleNames.length - 0) ≤ _
    rw [g.length_eliminationOrder]
    omega
  refine ⟨_, Nat.le_refl _, hpending, eliminated_of_finished ?_ hpending⟩
  -- the rounds allowed are a power of two that is out of reach of the rules
  have hsize : g.ruleNames.length = g.rules.size := by
    rw [ruleNames, Table.keys, List.length_map]
    rfl
  have hpow : g.rules.size < Nat.pow 2 g.rules.size := Nat.lt_two_pow_self
  have hlimit : g.eliminationLimit = Nat.pow 2 g.rules.size * Nat.pow 2 30 :=
    Nat.pow_add 2 g.rules.size 30
  rw [hlimit, hsize, Nat.mul_comm]
  exact Nat.mul_le_mul (Nat.le_of_lt hpow) (by decide)

/-- **No more names are given out than the grammar has rules.** -/
theorem EpsilonFree.length_mintings_le (hfree : g.EpsilonFree) (hclosed : g.Closed)
    (names : NameAllocator) (n : Nat) :
    (Elimination.mintings n (Elimination.start g names)).length ≤ g.ruleNames.length := by
  have hgraded := (Elimination.graded_start hfree hclosed names).rounds n
  have hlength := hgraded.length_le
  have hnames : (Elimination.rounds n (Elimination.start g names)).grammar.ruleNames
      = g.ruleNames ++ (Elimination.mintings n (Elimination.start g names)).map Minting.name :=
    Elimination.ruleNames_rounds n (Elimination.ordered_start g names)
  rw [Elimination.order, List.Perm.length_eq hgraded.ordered, hnames, List.length_append,
    List.length_map] at hlength
  omega

/-- **Without empty alternatives elimination ends and works.** In a grammar in which no
alternative is empty and every non-terminal has a rule, the process ends after two rounds
for each rule at most. Every rule has one turn. The turn leaves the supply of names as it is, or
it is the turn of a rule of the grammar and takes one name from the supply. The names given out
in all turns account for what is missing from the supply in the end; they are those of the rules
that have come in, and no more than the rules of the grammar. Following first symbols leads
nowhere back. -/
theorem eliminateLeftRecursionWith_of_epsilonFree (hfree : g.EpsilonFree) (hclosed : g.Closed)
    (names : NameAllocator) :
    let run := fun i => Elimination.rounds i (Elimination.start g names)
    let minted := fun i => Elimination.mintings i (Elimination.start g names)
    ∃ n ≤ 2 * g.ruleNames.length,
      g.eliminateLeftRecursionWith names = .ok (run n) ∧ (run n).pending = []
        ∧ (∀ i j left rest rest', (run i).pending = left :: rest →
          (run j).pending = left :: rest' → i = j)
        ∧ (∀ i left rest, (run i).pending = left :: rest →
          (run i).roundMintings = [] ∧ (run i).round.names = (run i).names
            ∨ left ∈ g.ruleNames
              ∧ ∃ m, (run i).roundMintings = [m] ∧ GivesOut (run i).names [m] (run i).round.names)
        ∧ GivesOut names (minted n) (run n).names
        ∧ (run n).grammar.ruleNames = g.ruleNames ++ (minted n).map Minting.name
        ∧ (minted n).length ≤ g.ruleNames.length
        ∧ ¬ (run n).grammar.LeftRecursive := by
  intro run minted
  obtain ⟨n, hn, hpending, hdone⟩ := hfree.exists_rounds hclosed names
  have hgraded := Elimination.graded_start hfree hclosed names
  have hordered := Elimination.ordered_start g names
  exact ⟨n, hn, hdone, hpending,
    fun i j left rest rest' hi hj => Elimination.turn_unique hordered hi hj,
    fun i left rest hi => (hgraded.rounds i).roundMintings_cases hi,
    Elimination.givesOut_rounds n hordered, Elimination.ruleNames_rounds n hordered,
    hfree.length_mintings_le hclosed names n, (hgraded.rounds n).not_leftRecursive hpending⟩

/-- A grammar with a unit cycle, and with direct recursion that comes out of it. -/
def circular : Grammar :=
  (((∅ : Grammar).setProductions "B"
    [.ofSymbols [.nonTerminal "A"], .ofSymbols [.nonTerminal "A", .terminal "d"]]).setProductions
    "A" [.ofSymbols [.nonTerminal "B"], .ofSymbols [.nonTerminal "A", .terminal "c"]]).setProductions
    "C" [.ofSymbols [.nonTerminal "C", .nonTerminal "A"], .ofSymbols [.terminal "x"]]

theorem rounds_circular :
    (Elimination.rounds 6 (Elimination.start circular ⟨7⟩)).pending = []
      ∧ (Elimination.rounds 6 (Elimination.start circular ⟨7⟩)).grammar.ruleNames
        = circular.ruleNames ++ ["X8", "X9", "X10"] := by
  cbv

/-- The elimination of the circular grammar ends, although rules lead back to themselves by
names alone, and each of its three rules takes a name. -/
theorem eliminateLeftRecursionWith_of_epsilonFree_circular :
    let run := fun i => Elimination.rounds i (Elimination.start circular ⟨7⟩)
    let minted := fun i => Elimination.mintings i (Elimination.start circular ⟨7⟩)
    circular.EpsilonFree ∧ circular.Closed ∧ ∃ n ≤ 6,
      circular.eliminateLeftRecursionWith ⟨7⟩ = .ok (run n) ∧ (run n).pending = []
        ∧ (∀ i j left rest rest', (run i).pending = left :: rest →
          (run j).pending = left :: rest' → i = j)
        ∧ (∀ i left rest, (run i).pending = left :: rest →
          (run i).roundMintings = [] ∧ (run i).round.names = (run i).names
            ∨ left ∈ circular.ruleNames
              ∧ ∃ m, (run i).roundMintings = [m] ∧ GivesOut (run i).names [m] (run i).round.names)
        ∧ GivesOut ⟨7⟩ (minted n) (run n).names
        ∧ (minted n).map Minting.name = ["X8", "X9", "X10"]
        ∧ ¬ (run n).grammar.LeftRecursive := by
  intro run minted
  have hfree : circular.EpsilonFree := by decide
  have hclosed : circular.Closed := by decide
  obtain ⟨n, hn, hdone, hpending, hturns, htakes, hgiven, hnames, -, hcycle⟩ :=
    eliminateLeftRecursionWith_of_epsilonFree hfree hclosed ⟨7⟩
  have hrun : run n = run 6 := by
    refine Except.ok.inj (hdone.symm.trans (eliminated_of_finished ?_ rounds_circular.1))
    decide +kernel
  have hrules : (run n).grammar.ruleNames = circular.ruleNames ++ ["X8", "X9", "X10"] := by
    rw [hrun]
    exact rounds_circular.2
  exact ⟨hfree, hclosed, n, hn, hdone, hpending, hturns, htakes, hgiven,
    List.append_cancel_left (hnames.symm.trans hrules), hcycle⟩

end Grammar

end GrammarWorkbench
