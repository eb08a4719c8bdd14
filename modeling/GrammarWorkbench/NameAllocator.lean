import GrammarWorkbench.Event
import GrammarWorkbench.Grammar.Basic

/-!
# Names for helper rules

Transformations add rules of their own and need names for them. The names are
`X1`, `X2`, and so on, each number used once by one allocator; a number whose name
already is a rule of the grammar at hand is passed over. The search for the next
free number ends because every number passed over uses up a rule name, and
different numbers have different names (`mintedName_injective`).

Only rules are avoided. A non-terminal that alternatives mention without having a
rule is not a rule, and its name may be given out.
-/

namespace GrammarWorkbench

/-- What every minted name begins with. -/
def mintedStem : String := "X"

/-- The minted name with a given number. -/
def mintedName (n : Nat) : String := mintedStem ++ n.repr

/-- **Different numbers have different names**: the digits can be read back. -/
theorem mintedName_injective {m n : Nat} (h : mintedName m = mintedName n) : m = n := by
  have hlist : m.repr.toList = n.repr.toList := by
    have := congrArg String.toList h
    simpa [mintedName, String.toList_append] using this
  rw [Nat.toList_repr, Nat.toList_repr] at hlist
  have := congrArg (Nat.ofDigitChars 10 · 0) hlist
  simpa [Nat.ofDigitChars_toDigits] using this

/-! ## The least free number -/

/-- The least number from `n` on whose name is not `taken`. -/
def leastFree (taken : List String) (n : Nat) : Nat :=
  if mintedName n ∈ taken then leastFree (taken.erase (mintedName n)) (n + 1) else n
termination_by taken.length
decreasing_by
  rename_i h
  have := List.length_erase_of_mem h
  have := List.length_pos_of_mem h
  omega

theorem le_leastFree (taken : List String) (n : Nat) : n ≤ leastFree taken n := by
  fun_induction leastFree taken n with
  | case1 taken n h ih => omega
  | case2 taken n h => exact Nat.le_refl n

/-- Leaving out the name of one number does not matter to the others. -/
theorem mem_erase_mintedName {taken : List String} {m n : Nat} (h : m ≠ n) :
    mintedName m ∈ taken.erase (mintedName n) ↔ mintedName m ∈ taken :=
  List.mem_erase_of_ne fun he => h (mintedName_injective he)

/-- **The number found is free.** -/
theorem mintedName_leastFree_not_mem (taken : List String) (n : Nat) :
    mintedName (leastFree taken n) ∉ taken := by
  fun_induction leastFree taken n with
  | case1 taken n h ih =>
    have := le_leastFree (taken.erase (mintedName n)) (n + 1)
    rwa [mem_erase_mintedName (by omega)] at ih
  | case2 taken n h => exact h

/-- **Every number passed over is taken.** -/
theorem mintedName_mem_of_lt_leastFree {taken : List String} {m n : Nat} (hn : n ≤ m)
    (hm : m < leastFree taken n) : mintedName m ∈ taken := by
  fun_induction leastFree taken n with
  | case1 taken n h ih =>
    by_cases he : m = n
    · exact he ▸ h
    · exact (mem_erase_mintedName he).mp (ih (by omega) hm)
  | case2 taken n h => omega

/-! ## Allocators -/

/-- **A supply of names**, given by the last number used. -/
structure NameAllocator where
  /-- The number of the last name given out; zero before the first. -/
  last : Nat
deriving DecidableEq

namespace NameAllocator

/-- A supply that has given out no name. -/
def initial : NameAllocator := ⟨0⟩

instance : Inhabited NameAllocator := ⟨initial⟩

/-- The number that comes next: the least one above the last whose name is not a
rule. -/
def next (names : NameAllocator) (g : Grammar) : Nat := leastFree g.ruleNames (names.last + 1)

/-- **Gives out the next name that is not a rule of `g`.** -/
def fresh (names : NameAllocator) (g : Grammar) : String × NameAllocator :=
  (mintedName (names.next g), ⟨names.next g⟩)

/-- A name given out is no rule. -/
theorem fresh_not_mem (names : NameAllocator) (g : Grammar) :
    (names.fresh g).1 ∉ g.ruleNames :=
  mintedName_leastFree_not_mem _ _

/-- The numbers given out ascend. -/
theorem last_lt_next (names : NameAllocator) (g : Grammar) : names.last < names.next g :=
  le_leastFree _ _

end NameAllocator

/-- What is reported when `name` is given out for `g`. -/
def Grammar.mintEvents (g : Grammar) (name : String) : List Event :=
  if g.rendersName name then [.ambiguousName name] else []

end GrammarWorkbench
