import GrammarWorkbench.Proofs.Language
import GrammarWorkbench.Proofs.LeftFactoring.Choices
import GrammarWorkbench.Proofs.Sequences

/-!
# References without a rule

An alternative may refer to a non-terminal that has no rule: the reference dangles
(`Grammar.Dangles`). Such a non-terminal generates nothing, as long as nobody gives it a rule.
But a supply of names looks at rules only, and if the reference happens to be called `X1` the
helper of a transformation can be called so, too. From then on the reference is to the helper.

How far this goes is the same for both transformations. Whatever is used inside of a step was
used before it (`Grammar.Meanwhile`), and after the step nothing new is used but the names given
out, which have rules then. So no reference ever comes to dangle that did not before
(`Grammar.Gains.of_uses`), and over any sequence of transformations the references that get a rule
are those that dangled in the very beginning and whose name is given out
(`Grammar.captures_iff_dangles`). A grammar in which no `X1`, `X2`, … dangles is safe.
-/

namespace GrammarWorkbench

namespace Grammar

/-- **The non-terminal `name` is referred to and has no rule.** -/
def Dangles (g : Grammar) (name : String) : Prop := g.Mentions name ∧ name ∉ g.ruleNames

instance (g : Grammar) (name : String) : Decidable (g.Dangles name) :=
  inferInstanceAs (Decidable ((∃ p ∈ g.alternatives, Symbol.nonTerminal name ∈ p.body)
    ∧ name ∉ g.ruleNames))

end Grammar

/-- **A name given out is new unless it dangles.** -/
theorem Minting.isNew_iff_not_dangles (m : Minting) : m.IsNew ↔ ¬ m.grammar.Dangles m.name :=
  ⟨fun hnew hdangles => hnew.2 hdangles.1,
    fun h => ⟨m.names.fresh_not_mem m.grammar,
      fun hmention => h ⟨hmention, m.names.fresh_not_mem m.grammar⟩⟩⟩

/-- A number above the last one, whose name is no rule, can come up: a supply that has just come
to it gives its name out. -/
theorem NameAllocator.exists_fresh_eq {names : NameAllocator} {g : Grammar} {k : Nat}
    (hk : names.last < k) (hfree : mintedName k ∉ g.ruleNames) :
    ∃ later : NameAllocator, names.last ≤ later.last ∧ (later.fresh g).1 = mintedName k := by
  refine ⟨⟨k - 1⟩, Nat.le_sub_one_of_lt hk, congrArg mintedName ?_⟩
  have hnext : k - 1 < (NameAllocator.mk (k - 1)).next g := NameAllocator.last_lt_next _ g
  refine Nat.le_antisymm (Nat.le_of_not_lt fun hlt => hfree ?_) (by omega)
  exact mintedName_mem_of_lt_leastFree (n := k - 1 + 1) (by omega) hlt

namespace Grammar

variable {g g' after : Grammar} {ms ms' : List Minting} {name : String}

/-- What dangles inside of a step dangled before. -/
theorem Meanwhile.dangles (h : g.Meanwhile g') (hname : g'.Dangles name) : g.Dangles name :=
  ⟨h.uses _ hname.1, fun hrule => hname.2 (h.rules hrule)⟩

/-- **What becomes of any grammar `g`** while the names of `ms` are given out, tidy or not. -/
structure Gains (g : Grammar) (ms : List Minting) (after : Grammar) : Prop where
  /-- The names are put behind the rules, in the order in which they were given out. -/
  ruleNames_eq : after.ruleNames = g.ruleNames ++ ms.map Minting.name
  /-- No reference comes to dangle. -/
  dangles : ∀ name, after.Dangles name → g.Dangles name
  /-- None did so for a time, when a name was given out. -/
  dangles_minting : ∀ m ∈ ms, ∀ name, m.grammar.Dangles name → g.Dangles name

namespace Gains

theorem refl (g : Grammar) : g.Gains [] g where
  ruleNames_eq := (List.append_nil _).symm
  dangles := fun _ => id
  dangles_minting := fun _ hm => absurd hm List.not_mem_nil

/-- **One after the other**, the names add up. -/
theorem trans (h : g.Gains ms g') (h' : g'.Gains ms' after) : g.Gains (ms ++ ms') after where
  ruleNames_eq := by rw [h'.ruleNames_eq, h.ruleNames_eq, List.map_append, List.append_assoc]
  dangles := fun name hname => h.dangles name (h'.dangles name hname)
  dangles_minting := by
    intro m hm name hname
    rcases List.mem_append.mp hm with hm | hm
    · exact h.dangles_minting m hm name hname
    · exact h.dangles name (h'.dangles_minting m hm name hname)

/-- **One step**: if nothing new is used but the names given out, nothing comes to dangle, since
these have rules. -/
theorem of_uses (hnames : after.ruleNames = g.ruleNames ++ ms.map Minting.name)
    (huses : ∀ a, after.Uses a → g.Uses a ∨ ∃ m ∈ ms, a = .nonTerminal m.name)
    (hmeanwhile : ∀ m ∈ ms, g.Meanwhile m.grammar) : g.Gains ms after where
  ruleNames_eq := hnames
  dangles := by
    rintro name ⟨hmention, hrule⟩
    rw [hnames, List.mem_append, not_or] at hrule
    refine ⟨(huses _ hmention).resolve_right ?_, hrule.1⟩
    rintro ⟨m, hm, heq⟩
    exact hrule.2 (Symbol.nonTerminal.inj heq ▸ List.mem_map_of_mem hm)
  dangles_minting := fun m hm _ => (hmeanwhile m hm).dangles

/-- **A reference that dangles gets a rule** if its name is given out, and only then. -/
theorem mem_ruleNames_iff (h : g.Gains ms after) (hname : g.Dangles name) :
    name ∈ after.ruleNames ↔ name ∈ ms.map Minting.name := by
  rw [h.ruleNames_eq, List.mem_append]
  exact or_iff_right hname.2

end Gains

end Grammar

/-! ## Transformations -/

namespace Elimination

variable {s : Elimination}

theorem gains_round (hs : s.Ordered) : s.grammar.Gains s.roundMintings s.round.grammar := by
  refine Grammar.Gains.of_uses ?_ (fun _ => uses_or_minted_of_uses_round hs)
    fun _ => meanwhile_of_mem_roundMintings
  cases hpending : s.pending with
  | nil =>
    rw [round_of_finished hpending, roundMintings_of_finished hpending]
    exact (List.append_nil _).symm
  | cons left rest => exact ruleNames_round hs hpending

/-- **What an elimination brings in** in any number of rounds. -/
theorem gains_rounds (n : Nat) (hs : s.Ordered) :
    s.grammar.Gains (mintings n s) (rounds n s).grammar := by
  induction n generalizing s with
  | zero => exact Grammar.Gains.refl s.grammar
  | succ n ih => exact (gains_round hs).trans (ih (ordered_round hs))

end Elimination

namespace Factoring

variable {s : Factoring}

theorem gains_step (hs : s.Consistent) (hqueue : s.queue ≠ []) :
    s.grammar.Gains s.stepMintings s.step.grammar := by
  obtain ⟨⟨left, ps⟩, rest, hqueue⟩ := List.exists_cons_of_ne_nil hqueue
  have hleft := hs.mem_ruleNames _ (hqueue ▸ List.mem_cons_self)
  exact Grammar.Gains.of_uses (ruleNames_step hqueue hleft)
    (fun _ => uses_or_minted_of_uses_step hs hqueue) fun _ => meanwhile_of_mem_stepMintings hs

/-- **What a factoring brings in.** -/
theorem gains_run (hs : s.Consistent) : s.grammar.Gains s.mintings s.run.grammar := by
  fun_induction run s with
  | case1 s hqueue =>
    rw [mintings_of_queue_eq_nil hqueue]
    exact Grammar.Gains.refl s.grammar
  | case2 s hqueue ih =>
    rw [mintings_of_queue_ne_nil hqueue]
    obtain ⟨_, rest, hcons⟩ := List.exists_cons_of_ne_nil hqueue
    exact (gains_step hs hqueue).trans (ih (consistent_step hs hcons))

end Factoring

namespace Grammar

variable {g after : Grammar} {ms : List Minting}

/-- **What any sequence of transformations brings in**. -/
theorem Becomes.gains (h : g.Becomes ms after) : g.Gains ms after := by
  induction h with
  | refl => exact Gains.refl g
  | eliminate _ names n ih =>
    exact ih.trans (Elimination.gains_rounds n (Elimination.ordered_start _ names))
  | factor _ names ih => exact ih.trans (Factoring.gains_run (Factoring.consistent_start _ names))

/-! ## Captures -/

/-- **A reference is captured exactly if it dangles and its name is given out.** The name that a
supply gives out is never a rule, and it is new unless it dangles; so all names that the supply
can give out, from now on and at any time, are new exactly if none of the numbers above the last
one has a name that dangles. In any sequence of transformations, eliminations that may be broken
off and factorings, a name that is not new when it is given out dangled in the beginning, and no
non-terminal that the grammar referred to without a rule gets one exactly if none of the names
given out dangled in the beginning. -/
theorem captures_iff_dangles (g : Grammar) (names : NameAllocator) :
    ((names.fresh g).1 ∉ g.ruleNames
        ∧ (g.Mentions (names.fresh g).1 ↔ g.Dangles (names.fresh g).1))
      ∧ ((∀ later : NameAllocator, names.last ≤ later.last →
          (later.fresh g).1 ∉ g.ruleNames ∧ ¬ g.Mentions (later.fresh g).1)
        ↔ ∀ k, names.last < k → ¬ g.Dangles (mintedName k))
      ∧ ∀ ms after, g.Becomes ms after →
        (∀ m ∈ ms, m.name ∉ m.grammar.ruleNames
          ∧ (m.grammar.Mentions m.name → g.Dangles m.name))
        ∧ ((∀ name ∈ after.ruleNames, g.Mentions name → name ∈ g.ruleNames)
          ↔ ∀ m ∈ ms, ¬ g.Dangles m.name) := by
  have hfresh : ∀ names : NameAllocator, (names.fresh g).1 ∉ g.ruleNames := fun names =>
    names.fresh_not_mem g
  refine ⟨⟨hfresh names, fun h => ⟨h, hfresh names⟩, And.left⟩, ?_, fun ms after h => ?_⟩
  · constructor
    · intro h k hk hdangles
      obtain ⟨later, hlast, heq⟩ := NameAllocator.exists_fresh_eq hk hdangles.2
      exact (h later hlast).2 (heq ▸ hdangles.1)
    · intro h later hlast
      exact (Minting.isNew_iff_not_dangles ⟨g, later⟩).mpr
        (h _ (Nat.lt_of_le_of_lt hlast (later.last_lt_next g)))
  · have hgains := h.gains
    have hnew : ∀ m ∈ ms, m.name ∉ m.grammar.ruleNames := fun m _ =>
      m.names.fresh_not_mem m.grammar
    refine ⟨fun m hm => ⟨hnew m hm, fun hmention =>
      hgains.dangles_minting m hm _ ⟨hmention, hnew m hm⟩⟩, ?_, ?_⟩
    · intro hkept m hm hdangles
      have hrule := (hgains.mem_ruleNames_iff hdangles).mpr (List.mem_map_of_mem hm)
      exact hdangles.2 (hkept _ hrule hdangles.1)
    · intro hnone name hrule hmention
      by_contra hnot
      obtain ⟨m, hm, rfl⟩ := List.mem_map.mp
        ((hgains.mem_ruleNames_iff ⟨hmention, hnot⟩).mp hrule)
      exact hnone m hm ⟨hmention, hnot⟩

/-- Two rules that want a helper each. The second helper will be called as a non-terminal that
the first rule refers to. -/
def expecting : Grammar :=
  ((∅ : Grammar).setProductions "S"
    [.ofSymbols [.terminal "a", .terminal "b"],
      .ofSymbols [.terminal "a", .nonTerminal "X2"]]).setProductions "T"
    [.ofSymbols [.terminal "c", .terminal "d"], .ofSymbols [.terminal "c", .terminal "e"]]

/-- The first name is new and the second is not. A supply that has left `X2` behind gives out new
names only. -/
theorem captures_iff_dangles_expecting :
    (∀ later : NameAllocator, 2 ≤ later.last →
        (later.fresh expecting).1 ∉ expecting.ruleNames
          ∧ ¬ expecting.Mentions (later.fresh expecting).1)
      ∧ ∃ ms after, expecting.Becomes ms after ∧ ms.map Minting.name = ["X1", "X2"]
        ∧ (∀ m ∈ ms, m.name ∉ m.grammar.ruleNames
          ∧ (m.grammar.Mentions m.name → expecting.Dangles m.name))
        ∧ ¬ ∀ name ∈ after.ruleNames, expecting.Mentions name → name ∈ expecting.ruleNames := by
  have hbecomes := Becomes.refl.factor (g := expecting) .initial
  have hminted : ((Factoring.start expecting .initial).mintings).map Minting.name
      = ["X1", "X2"] := by cbv
  have honly : ∀ p ∈ expecting.alternatives, ∀ a ∈ p.body, ∀ name ∈ a.nonTerminal?,
      name = "X2" := by decide +kernel
  obtain ⟨-, hlater, hall⟩ := captures_iff_dangles expecting ⟨2⟩
  obtain ⟨hmoments, hcaptured⟩ := hall _ _ hbecomes
  refine ⟨hlater.mpr fun k hk hdangles => ?_, _, _, hbecomes, hminted, hmoments, fun hnone => ?_⟩
  · obtain ⟨⟨p, hp, hmem⟩, -⟩ := hdangles
    have heq : mintedName k = mintedName 2 := honly p hp _ hmem _ rfl
    exact absurd (mintedName_injective heq) (Nat.ne_of_gt hk)
  · have hmem : "X2" ∈ ((Factoring.start expecting .initial).mintings).map Minting.name := by
      rw [hminted]
      exact List.mem_cons_of_mem _ List.mem_cons_self
    obtain ⟨m, hm, hname⟩ := List.mem_map.mp hmem
    exact hcaptured.mp hnone m hm (hname ▸ by decide +kernel)

/-- A rule whose alternatives begin with a non-terminal that has no rule. -/
def capturing : Grammar :=
  ((∅ : Grammar).addProduction "S" (.ofSymbols [.nonTerminal "X1", .terminal "a"])).addProduction
    "S" (.ofSymbols [.nonTerminal "X1", .terminal "b"])

/-- **A name given out may be in use.** The non-terminal `X1` is mentioned and has no rule, so
nothing is generated. `X1` is also the first name that is given out; in the factored grammar it
has a rule, and texts are generated. -/
theorem fresh_name_captured :
    (NameAllocator.initial.fresh capturing).1 = "X1" ∧ capturing.Mentions "X1"
      ∧ "X1" ∉ capturing.ruleNames ∧ "X1" ∈ capturing.leftFactor.grammar.ruleNames
      ∧ (∀ w, ¬ capturing.Generates "S" w)
      ∧ capturing.leftFactor.grammar.Generates "S" [.terminal "a", .terminal "a"] := by
  have hdangles : capturing.Dangles "X1" := by decide +kernel
  refine ⟨by decide +kernel, hdangles.1, hdangles.2, by decide +kernel, fun w hw => ?_, ?_⟩
  · -- without a text for `X1` the alternatives of `S` have none either
    refine IsModel.of_generates (L := fun _ _ => False) ?_ hw
    rintro name w ⟨p, hp, hyields⟩
    have hbody : ∃ rest, p.body = Symbol.nonTerminal "X1" :: rest := by
      have hall : ∀ p ∈ capturing.alternatives, p.startsWith "X1" = true := by decide +kernel
      exact Production.startsWith_iff.mp (hall p (mem_alternatives.mpr ⟨name, hp⟩))
    obtain ⟨rest, hbody⟩ := hbody
    rw [hbody, Yields.nonTerminal_cons_iff] at hyields
    obtain ⟨_, _, -, hnone, -⟩ := hyields
    exact hnone
  · have hhelper : capturing.leftFactor.grammar.Generates "X1" [.terminal "a"] := by
      refine generates_iff_yieldsAny.mpr ⟨.ofSymbols [.terminal "a"], by decide +kernel, ?_⟩
      exact Yields.keep (by simp) .nil
    refine generates_iff_yieldsAny.mpr
      ⟨.ofSymbols [.nonTerminal "X1", .nonTerminal "X1"], by decide +kernel, ?_⟩
    exact Yields.replace (u := [.terminal "a"]) hhelper (Yields.nonTerminal_iff.mpr hhelper)

end Grammar

end GrammarWorkbench
