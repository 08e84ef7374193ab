import TreeCover.Tiling.Grammar

/-!
# Labeling

Labels say how cheaply each node of a tree can be reduced to each nonterminal, and by which rule.
Children are labeled before their parents. At a node, the rules for its head are tried in order,
and then the chain rules over and over until none of them helps; a rule counts only if it is
strictly cheaper than what is known.

The label of a node is the list of these improvements, latest first, so that the first entry for a
nonterminal holds its cost and its rule. Costs are capped: a sum that reaches the cap counts as no
derivation at all.
-/

namespace TreeCover

/-! ## Costs -/

/-- The cost of what cannot be derived. -/
def infinite : Nat := 0xffffffff

/-- Addition of costs, capped at `infinite`. -/
def addCost (a b : Nat) : Nat := min (a + b) infinite

/-! ## The label of a node -/

/-- A rule that was cheaper than all before it, with the cost it gives. -/
structure Improvement where
  rule : Rule
  cost : Nat
deriving Repr

/-- Improvements, latest first. -/
abbrev NodeLabel := List Improvement

namespace NodeLabel

/-- The improvement that counts for a nonterminal. -/
def best? (l : NodeLabel) (nt : Nonterminal) : Option Improvement := l.find? (·.rule.lhs = nt)

def cost (l : NodeLabel) (nt : Nonterminal) : Nat := ((l.best? nt).map (·.cost)).getD infinite

/-- Takes up a rule if it is strictly cheaper than what is known for its nonterminal. -/
def improve (l : NodeLabel) (r : Rule) (cost : Nat) : NodeLabel :=
  if cost < l.cost r.lhs then ⟨r, cost⟩ :: l else l

/-- Tries a chain rule. -/
def applyChain (l : NodeLabel) (r : Rule) : NodeLabel :=
  match r.pattern with
  | .nt source =>
    if l.cost source < infinite then l.improve r (addCost (l.cost source) r.cost) else l
  | _ => l

/-- Tries every chain rule once, in order. -/
def applyChains (l : NodeLabel) : NodeLabel := Grammar.chainRules.foldl applyChain l

/-- Tries the chain rules until a round changes nothing. -/
def closeFrom : Nat → NodeLabel → NodeLabel
  | 0, l => l
  | fuel + 1, l =>
    let l' := l.applyChains
    if l'.length = l.length then l else closeFrom fuel l'

/-- The closure under chain rules. No cheapest chain passes a nonterminal twice, so there are at
most as many fruitful rounds as nonterminals. -/
def close (l : NodeLabel) : NodeLabel := l.closeFrom (Nonterminal.all.length + 1)

end NodeLabel

/-! ## The labels of a tree -/

/-- Labels by node, latest first. -/
abbrev Labels := List (NodeId × NodeLabel)

namespace Labels

def label (ls : Labels) (id : NodeId) : NodeLabel := (ls.lookup id).getD []

def cost (ls : Labels) (id : NodeId) (nt : Nonterminal) : Nat := (ls.label id).cost nt

def rule? (ls : Labels) (id : NodeId) (nt : Nonterminal) : Option Rule :=
  ((ls.label id).best? nt).map (·.rule)

/-- The cost of reducing a node, if it can be reduced. -/
def cost? (ls : Labels) (id : NodeId) (nt : Nonterminal) : Option Nat :=
  if ls.cost id nt < infinite then some (ls.cost id nt) else none

/-- The cost of reducing several nodes to one nonterminal. -/
def costAll? (ls : Labels) (nt : Nonterminal) : List NodeId → Option Nat
  | [] => some 0
  | id :: ids => do
    let c ← ls.cost? id nt
    return addCost c (← ls.costAll? nt ids)

end Labels

mutual

/-- The cost of the leaves of a pattern that matches at a node. -/
def Pattern.matchCost? (f : Forest) (ls : Labels) : Pattern → NodeId → Option Nat
  | .nt goal, id => ls.cost? id goal
  | .op h kids, id =>
    if (f.node id).head? ≠ some h then none
    else if h = .inRegister then some 0
    else if (f.node id).kids.length ≠ kids.length then none
    else Pattern.matchKids? f ls kids (f.kidOwners id)
  | .variadic h goal, id =>
    if (f.node id).head? ≠ some h then none else ls.costAll? goal (f.kidOwners id)

/-- The cost of the leaves of patterns that match at corresponding nodes. -/
def Pattern.matchKids? (f : Forest) (ls : Labels) : List Pattern → List NodeId → Option Nat
  | p :: ps, id :: ids => do
    let c ← p.matchCost? f ls id
    return addCost c (← Pattern.matchKids? f ls ps ids)
  | _, _ => some 0

end

/-- Tries a rule for the head of a node. -/
def tryRule (f : Forest) (ls : Labels) (id : NodeId) (l : NodeLabel) (r : Rule) : NodeLabel :=
  if r.admits f id then
    match r.pattern.matchCost? f ls id with
    | some c => l.improve r (addCost c r.cost)
    | none => l
  else l

/-- The label of a node whose children are labeled. -/
def labelNode (f : Forest) (ls : Labels) (id : NodeId) : NodeLabel :=
  let rules := ((f.node id).head?.map Grammar.rulesFor).getD []
  (rules.foldl (tryRule f ls id) []).close

/-- Labels what is not labeled yet in the tree of an owner, the last child first. It stops at a
node that cannot be reduced to anything; what was labeled before stays. -/
def labelFrom (f : Forest) : Nat → NodeId → EStateM NodeId Labels Unit
  | 0, _ => return
  | fuel + 1, id => do
    if ((← get).lookup id).isSome then return
    unless (f.node id).computed do
      (f.kidOwners id).reverse.forM (labelFrom f fuel)
    let l := labelNode f (← get) id
    if l.isEmpty then throw id
    modify ((id, l) :: ·)

/-- Labels the tree under `root`. -/
def labelTree (f : Forest) (root : NodeId) : EStateM NodeId Labels Unit :=
  labelFrom f (f.size + 1) (f.owner root)

end TreeCover
