import ScriptTree.Proofs.Optimize.Shape

/-!
Passes that ask for children by index. The rules match the shapes they apply to; here each is written out
as a sequence of questions to the node, where asking for a child that is missing is an error. Whatever the
tree, every question about a child comes after one that makes sure of it: no rule runs into an error, and
each gives what it gives by matching. So does a walk.
-/

namespace ScriptTree

theorem ok_bind {α β : Type} (a : α) (f : α → Except Halt β) : (Except.ok a >>= f) = f a := rfl

namespace Node

def childAt (n : Node) (i : Nat) : Except Halt Node :=
  match n.children[i]? with
  | some c => .ok c
  | none => .error (.missingChild i n.children.length)

def lastChild (n : Node) : Except Halt Node := n.childAt (n.children.length - 1)

/-- The node with another child at an index, if it has one there. -/
def replaceAt (n : Node) (i : Nat) (c : Node) : Except Halt Node :=
  match n.withChild? i c with
  | some m => .ok m
  | none => .error (.missingChild i n.children.length)

/-- The node whose structure is looked at: for a counted node the loop it stands for. -/
def seen : Node → Node
  | .counted _ generic _ _ _ => seen generic
  | n => n

variable {n c d : Node} {cs : List Node} {i : Nat}

theorem childAt_of_getElem? (h : n.children[i]? = some c) : n.childAt i = .ok c := by
  unfold childAt
  rw [h]

theorem mem_of_childAt (h : n.childAt i = .ok c) : c ∈ n.children := by
  unfold childAt at h
  split at h
  · rename_i hc
    cases h
    exact List.mem_of_getElem? hc
  · cases h

theorem last?_nil (h : n.children = []) : n.last? = none := by
  rw [last?, h, List.getLast?_nil]

theorem last?_concat (h : n.children = cs ++ [c]) : n.last? = some c := by
  rw [last?, h, List.getLast?_concat]

theorem length_concat (h : n.children = cs ++ [c]) : 0 < n.children.length := by
  rw [h, List.length_append, List.length_singleton]
  exact Nat.succ_pos _

theorem lastChild_concat (h : n.children = cs ++ [c]) : n.lastChild = .ok c :=
  childAt_of_getElem? (by simp [h])

theorem replaceAt_last (h : n.children = cs ++ [c]) :
    n.replaceAt (n.children.length - 1) d = .ok (n.withChildren (cs ++ [d])) := by
  simp [replaceAt, withChild?, h]

theorem sizeOf_seen (n : Node) : sizeOf n.seen ≤ sizeOf n := by
  fun_induction seen n with
  | case1 _ generic _ _ _ ih => simp only [Node.counted.sizeOf_spec]; omega
  | case2 => exact Nat.le_refl _

end Node

/-!
### The rules

Each goes through the questions that lead to the node a rule yields, in the order in which they are asked.
-/

namespace Rule.Indexed

/-- The rule for trailing returns. -/
def trailingReturn (n : Node) : Except Halt (Option Node) := do
  if n.isForm .definition ∧ 0 < n.children.length then
    let body ← n.lastChild
    if body.isForm .block ∧ 0 < body.children.length then
      let final ← body.lastChild
      if final.isForm .returned ∧ final.children.length = 1 then
        let shorter ← body.replaceAt (body.children.length - 1) (← final.childAt 0)
        return some (← n.replaceAt (n.children.length - 1) shorter)
      else return none
    else return none
  else return none

mutual

/-- The search for declarations in a node. -/
def declares (n : Node) : Except Halt Bool :=
  if n.seen.isForm .declaration || n.seen.isForm .definition then return true
  else declaresFrom n.seen 0
termination_by (sizeOf n, 1, 0)
decreasing_by
  have := n.sizeOf_seen
  rcases Nat.lt_or_eq_of_le this with h | h
  · exact .left _ _ h
  · rw [h]; exact .right _ (.left _ _ (by decide))

/-- The search in the children from an index on; blocks keep their declarations to themselves. -/
def declaresFrom (n : Node) (i : Nat) : Except Halt Bool :=
  if i < n.children.length then
    match h : n.childAt i with
    | .error e => .error e
    | .ok c =>
      if c.isForm .block then declaresFrom n (i + 1)
      else do
        if ← declares c then return true
        else declaresFrom n (i + 1)
  else return false
termination_by (sizeOf n, 0, n.children.length - i)
decreasing_by
  · exact .right _ (.right _ (by omega))
  · exact .left _ _ (Node.sizeOf_child (Node.mem_of_childAt h))
  · exact .right _ (.right _ (by omega))

end

/-- The rule for blocks. -/
def loneBlock (n : Node) : Except Halt (Option Node) := do
  if n.isForm .block ∧ n.children.length = 1 then
    if ← declares n then return none
    else return some (← n.childAt 0)
  else return none

/-- The rule for choices. -/
def deadBranch (n : Node) : Except Halt (Option Node) := do
  if (n.isForm .conditional ∨ n.isForm .ternary) ∧ 2 ≤ n.children.length then
    match (← n.childAt 0).value? with
    | some (.plain (.bool true)) => return some (← n.childAt 1)
    | some (.plain (.bool false)) =>
      if n.children.length = 3 then return some (← n.childAt 2)
      else return none
    | _ => return none
  else return none

/-- The folding of conversions. -/
def foldConversion (span : Span) (callee arguments : Node) : Except Halt (Option Node) := do
  if callee.isForm .identifier ∧ arguments.isForm .argumentList ∧ arguments.children.length = 1 then
    if (NumericType.ofName? callee.text).isSome then
      match numberOf (← arguments.childAt 0) with
      | none => return none
      | some d =>
        match d.convert callee.text with
        | .ok r =>
          let argument ← arguments.childAt 0
          return some (.ofLiteral (callee.text ++ "(" ++ argument.text ++ ")") span (.plain r))
        | .error _ => return none
    else return none
  else return none

/-- The rule for arithmetic. -/
def constantFolding (n : Node) : Except Halt (Option Node) := do
  if n.isForm .binary ∧ n.children.length = 2 then
    return foldBinary n.text n.span (← n.childAt 0) (← n.childAt 1)
  else if n.isForm .call ∧ n.children.length = 2 then
    foldConversion n.span (← n.childAt 0) (← n.childAt 1)
  else return none

/-- The setup of a counting loop. -/
def counterSetup? (n : Node) : Except Halt (Option (String × Int32)) := do
  if n.isForm .equation ∧ n.text = "=" ∧ n.children.length = 2 then
    let target ← n.childAt 0
    if target.isForm .declaration ∧ 1 ≤ target.children.length then
      match intLiteral? (← n.childAt 1) with
      | some first => return some ((← target.childAt 0).text, first)
      | none => return none
    else return none
  else return none

/-- The condition of a counting loop. -/
def counterLimit? (counter : String) (n : Node) : Except Halt (Option Int32) := do
  if n.isForm .binary ∧ n.text = "<" ∧ n.children.length = 2 then
    let lhs ← n.childAt 0
    if lhs.isForm .identifier ∧ lhs.text = counter then return intLiteral? (← n.childAt 1)
    else return none
  else return none

/-- The step of a counting loop. -/
def isIncrement (counter : String) (n : Node) : Except Halt Bool := do
  if n.isForm .prefixed ∧ n.text = "++" ∧ n.children.length = 1 then
    let operand ← n.childAt 0
    return operand.isForm .identifier && operand.text == counter
  else return false

/-- The rule for counting loops. -/
def countedLoop (n : Node) : Except Halt (Option Node) := do
  if n.isForm .forLoop ∧ n.children.length = 4 then
    match ← counterSetup? (← n.childAt 0) with
    | some (counter, first) =>
      match ← counterLimit? counter (← n.childAt 1) with
      | some limit =>
        if ← isIncrement counter (← n.childAt 2) then
          return some (.counted ⟨counter, first, limit⟩ n n.text n.span [← n.childAt 3])
        else return none
      | none => return none
    | none => return none
  else return none

end Rule.Indexed

/-! ### The rules do not ask in vain -/

namespace Rule

variable {n c : Node} {form : Form} {k : Nat}

/-- A construct with a given number of children. -/
theorem construct_of_length (h : n.isForm form = true ∧ n.children.length = k) :
    ∃ text span ns, n = .construct form text span ns ∧ ns.length = k := by
  obtain ⟨text, span, ns, rfl⟩ := isForm_eq h.1
  exact ⟨text, span, ns, rfl, h.2⟩

theorem isForm_construct {form' : Form} {text : String} {span : Span} {ns : List Node} :
    (Node.construct form text span ns).isForm form' = true ↔ form = form' := by
  simp [Node.isForm, Node.kind]

/-- The cases follow the questions: the last child, the last statement in it, and what that returns. -/
theorem trailingReturn_indexed (n : Node) : Indexed.trailingReturn n = .ok (trailingReturn n) := by
  unfold Indexed.trailingReturn trailingReturn
  cases hdef : n.isForm .definition with
  | false => rfl
  | true =>
    simp only [Bool.not_true, Bool.false_eq_true, if_false, true_and]
    obtain hn | ⟨pre, body, hn⟩ := List.eq_nil_or_concat' n.children
    · rw [if_neg (by simp [hn]), Node.last?_nil hn]
      rfl
    rw [if_pos (Node.length_concat hn), Node.lastChild_concat hn, ok_bind, Node.last?_concat hn]
    simp only [Option.bind_eq_bind, Option.bind_some]
    cases hblock : body.isForm .block with
    | false => rfl
    | true =>
      simp only [Bool.not_true, Bool.false_eq_true, if_false, true_and]
      obtain hb | ⟨init, final, hb⟩ := List.eq_nil_or_concat' body.children
      · rw [if_neg (by simp [hb]), Node.last?_nil hb]
        rfl
      rw [if_pos (Node.length_concat hb), Node.lastChild_concat hb, ok_bind, Node.last?_concat hb]
      simp only [Option.bind_some]
      split
      · rename_i hguard
        obtain ⟨t, a, es, rfl, hes⟩ := construct_of_length hguard
        obtain ⟨e, rfl⟩ := List.length_eq_one_iff.1 hes
        have hvalue : (Node.construct .returned t a [e]).childAt 0 = .ok e := rfl
        rw [hvalue, ok_bind, Node.replaceAt_last hb, ok_bind, Node.replaceAt_last hn, ok_bind]
        simp only [hn, hb, List.dropLast_concat]
        rfl
      · rename_i hguard
        split
        · exact absurd ⟨rfl, rfl⟩ hguard
        · rfl

theorem declares_seen (n : Node) : declares n =
    (n.seen.isForm .declaration || n.seen.isForm .definition || declaresAny n.seen.children) := by
  fun_induction Node.seen n with
  | case1 _ generic _ _ _ ih => rw [declares, ih]
  | case2 n hn =>
    cases n with
    | construct form => cases form <;> rfl
    | constant => simp [declares, Node.isForm, Node.kind, Node.children]
    | counted => exact absurd rfl (hn _ _ _ _ _)

/-- By induction on the number of children left to search. -/
theorem declaresFrom_indexed (h : ∀ c ∈ n.children, Indexed.declares c = .ok (declares c)) (k : Nat) :
    ∀ i, n.children.length - i = k → Indexed.declaresFrom n i = .ok (declaresAny (n.children.drop i)) := by
  induction k with
  | zero =>
    intro i hk
    rw [Indexed.declaresFrom, if_neg (by omega), List.drop_eq_nil_of_le (by omega)]
    rfl
  | succ k ih =>
    intro i hk
    have hi : i < n.children.length := by omega
    have hchild : n.childAt i = .ok n.children[i] := Node.childAt_of_getElem? (List.getElem?_eq_getElem hi)
    have hrest := ih (i + 1) (by omega)
    rw [Indexed.declaresFrom, if_pos hi, List.drop_eq_getElem_cons hi, declaresAny]
    split
    · rename_i e he
      rw [hchild] at he
      cases he
    · rename_i c hc
      rw [hchild] at hc
      cases hc
      rw [h _ (List.getElem_mem hi), hrest]
      cases n.children[i].isForm .block <;> cases declares n.children[i] <;> rfl

/-- By induction on the tree. -/
theorem declares_indexed (n : Node) : Indexed.declares n = .ok (declares n) := by
  induction h : sizeOf n using Nat.strongRecOn generalizing n with
  | _ size ih =>
    subst h
    have hchildren : ∀ c ∈ n.seen.children, Indexed.declares c = .ok (declares c) := fun c hc =>
      ih (sizeOf c) (Nat.lt_of_lt_of_le (Node.sizeOf_child hc) n.sizeOf_seen) c rfl
    rw [Indexed.declares, declaresFrom_indexed hchildren _ 0 rfl, declares_seen, List.drop_zero]
    split
    · rename_i hform
      rw [hform]
      rfl
    · rename_i hform
      rw [Bool.eq_false_iff.2 hform]
      rfl

theorem loneBlock_indexed (n : Node) : Indexed.loneBlock n = .ok (loneBlock n) := by
  unfold Indexed.loneBlock
  split
  · rename_i hguard
    obtain ⟨text, span, ns, rfl, hlength⟩ := construct_of_length hguard
    obtain ⟨c, rfl⟩ := List.length_eq_one_iff.1 hlength
    have hdeclares : declares (.construct .block text span [c]) = declaresAny [c] := rfl
    rw [declares_indexed, hdeclares, loneBlock]
    cases declaresAny [c] <;> rfl
  · rename_i hguard
    unfold loneBlock
    split
    · exact absurd ⟨rfl, rfl⟩ hguard
    · rfl

theorem deadBranch_indexed (n : Node) : Indexed.deadBranch n = .ok (deadBranch n) := by
  unfold Indexed.deadBranch
  split
  · rename_i hguard
    obtain ⟨form, text, span, ns, rfl⟩ : ∃ form text span ns, n = .construct form text span ns := by
      rcases hguard.1 with h | h <;> exact ⟨_, isForm_eq h⟩
    rw [isForm_construct, isForm_construct] at hguard
    match ns, hguard with
    | test :: first :: rest, ⟨hform, _⟩ =>
      match test with
      | .construct .. | .counted .. | .constant (.reference _) .. => rfl
      | .constant (.plain (.bool true)) .. => exact congrArg Except.ok (if_pos hform).symm
      | .constant (.plain (.bool false)) .. =>
        match rest with
        | [] | [_] | _ :: _ :: _ => exact congrArg Except.ok (if_pos hform).symm
      | .constant (.plain .undefined) .. | .constant (.plain .void) .. | .constant (.plain (.number _)) ..
      | .constant (.plain (.string _)) .. | .constant (.plain (.host _)) .. | .constant (.plain (.script _)) .. => rfl
  · rename_i hguard
    unfold deadBranch
    split
    · rename_i form _ _ b _ _ _ first rest
      rw [isForm_construct, isForm_construct] at hguard
      rw [if_neg fun hform => hguard ⟨hform, Nat.le_add_left 2 _⟩]
      rfl
    · rfl

theorem foldConversion_indexed (span : Span) (callee arguments : Node) :
    Indexed.foldConversion span callee arguments = .ok (foldConversion span callee arguments) := by
  unfold Indexed.foldConversion foldConversion
  split
  · rename_i hguard
    obtain ⟨hcallee, hlist⟩ := hguard
    obtain ⟨text, span', ns, rfl, hlength⟩ := construct_of_length hlist
    obtain ⟨argument, rfl⟩ := List.length_eq_one_iff.1 hlength
    split
    · rename_i hname
      have hargument : (Node.construct .argumentList text span' [argument]).childAt 0 = .ok argument := rfl
      simp only [hargument, ok_bind, hcallee, hname, and_self, if_true]
      cases numberOf argument with
      | none => rfl
      | some d =>
        simp only [Option.bind_eq_bind, Option.bind_some]
        cases d.convert callee.text <;> rfl
    · rename_i hname
      exact congrArg Except.ok (if_neg fun h => hname h.2).symm
  · rename_i hguard
    split
    · rw [if_neg fun h => hguard ⟨h.1, rfl, rfl⟩]
      rfl
    · rfl

theorem constantFolding_indexed (n : Node) : Indexed.constantFolding n = .ok (constantFolding n) := by
  unfold Indexed.constantFolding
  split
  · rename_i hguard
    obtain ⟨text, span, ns, rfl, hlength⟩ := construct_of_length hguard
    obtain ⟨lhs, rhs, rfl⟩ := List.length_eq_two.1 hlength
    rfl
  · rename_i hbinary
    split
    · rename_i hguard
      obtain ⟨text, span, ns, rfl, hlength⟩ := construct_of_length hguard
      obtain ⟨callee, arguments, rfl⟩ := List.length_eq_two.1 hlength
      exact foldConversion_indexed span callee arguments
    · rename_i hcall
      unfold constantFolding
      split
      · exact absurd ⟨rfl, rfl⟩ hbinary
      · exact absurd ⟨rfl, rfl⟩ hcall
      · rfl

theorem counterSetup?_indexed (n : Node) : Indexed.counterSetup? n = .ok (counterSetup? n) := by
  unfold Indexed.counterSetup?
  split
  · rename_i hguard
    obtain ⟨text, span, ns, rfl, hlength⟩ := construct_of_length ⟨hguard.1, hguard.2.2⟩
    obtain ⟨target, value, rfl⟩ := List.length_eq_two.1 hlength
    obtain rfl : text = "=" := hguard.2.1
    have htarget : (Node.construct .equation "=" span [target, value]).childAt 0 = .ok target := rfl
    have hvalue : (Node.construct .equation "=" span [target, value]).childAt 1 = .ok value := rfl
    rw [htarget, ok_bind, hvalue, ok_bind]
    split
    · rename_i hdeclaration
      obtain ⟨t, s, ms, rfl⟩ := isForm_eq hdeclaration.1
      match ms with
      | name :: ms =>
        rw [counterSetup?]
        cases intLiteral? value <;> rfl
    · rename_i hdeclaration
      unfold counterSetup?
      split
      · rename_i heq
        cases heq
        exact absurd ⟨rfl, Nat.le_add_left 1 _⟩ hdeclaration
      · rfl
  · rename_i hguard
    unfold counterSetup?
    split
    · exact absurd ⟨rfl, rfl, rfl⟩ hguard
    · rfl

theorem counterLimit?_indexed (counter : String) (n : Node) :
    Indexed.counterLimit? counter n = .ok (counterLimit? counter n) := by
  unfold Indexed.counterLimit?
  split
  · rename_i hguard
    obtain ⟨text, span, ns, rfl, hlength⟩ := construct_of_length ⟨hguard.1, hguard.2.2⟩
    obtain ⟨lhs, value, rfl⟩ := List.length_eq_two.1 hlength
    obtain rfl : text = "<" := hguard.2.1
    have hlhs : (Node.construct .binary "<" span [lhs, value]).childAt 0 = .ok lhs := rfl
    rw [hlhs, ok_bind]
    unfold counterLimit?
    split
    · rename_i hname
      obtain ⟨t, s, ms, rfl⟩ := isForm_eq hname.1
      exact congrArg Except.ok (if_pos hname.2).symm
    · rename_i hname
      split
      · rename_i heq
        cases heq
        exact congrArg Except.ok (if_neg fun h => hname ⟨rfl, h⟩).symm
      · rfl
  · rename_i hguard
    unfold counterLimit?
    split
    · exact absurd ⟨rfl, rfl, rfl⟩ hguard
    · rfl

theorem isIncrement_indexed (counter : String) (n : Node) :
    Indexed.isIncrement counter n = .ok (isIncrement counter n) := by
  unfold Indexed.isIncrement
  split
  · rename_i hguard
    obtain ⟨text, span, ns, rfl, hlength⟩ := construct_of_length ⟨hguard.1, hguard.2.2⟩
    obtain ⟨operand, rfl⟩ := List.length_eq_one_iff.1 hlength
    obtain rfl : text = "++" := hguard.2.1
    match operand with
    | .construct form .. => cases form <;> rfl
    | .constant .. | .counted .. => rfl
  · rename_i hguard
    unfold isIncrement
    split
    · exact absurd ⟨rfl, rfl, rfl⟩ hguard
    · rfl

theorem countedLoop_indexed (n : Node) : Indexed.countedLoop n = .ok (countedLoop n) := by
  unfold Indexed.countedLoop
  split
  · rename_i hguard
    obtain ⟨text, span, ns, rfl, hlength⟩ := construct_of_length hguard
    match ns, hlength with
    | [setup, test, step, body], _ =>
      have hsetup : (Node.construct .forLoop text span [setup, test, step, body]).childAt 0 = .ok setup := rfl
      have htest : (Node.construct .forLoop text span [setup, test, step, body]).childAt 1 = .ok test := rfl
      have hstep : (Node.construct .forLoop text span [setup, test, step, body]).childAt 2 = .ok step := rfl
      rw [hsetup, ok_bind, counterSetup?_indexed, ok_bind, countedLoop, countedHead?]
      cases counterSetup? setup with
      | none => rfl
      | some head =>
        obtain ⟨counter, first⟩ := head
        simp only [htest, hstep, ok_bind, counterLimit?_indexed, isIncrement_indexed]
        cases hlimit : counterLimit? counter test with
        | none =>
          simp only [Option.bind_eq_bind, Option.bind_some, hlimit, Option.bind_none]
          rfl
        | some limit =>
          simp only [Option.bind_eq_bind, Option.bind_some, hlimit]
          cases isIncrement counter step <;> rfl
  · rename_i hguard
    unfold countedLoop
    split
    · exact absurd ⟨rfl, rfl⟩ hguard
    · rfl

end Rule

/-! ### Walks do not ask in vain -/

/-- The rule of a pass. -/
def Pass.indexed : Pass → Node → Except Halt (Option Node)
  | .trailingReturn => Rule.Indexed.trailingReturn
  | .loneBlock => Rule.Indexed.loneBlock
  | .deadBranch => Rule.Indexed.deadBranch
  | .constantFolding => Rule.Indexed.constantFolding
  | .countedLoop => Rule.Indexed.countedLoop

theorem Pass.rule_indexed (pass : Pass) (n : Node) : pass.indexed n = .ok (pass.rule n) := by
  cases pass with
  | trailingReturn => exact Rule.trailingReturn_indexed n
  | loneBlock => exact Rule.loneBlock_indexed n
  | deadBranch => exact Rule.deadBranch_indexed n
  | constantFolding => exact Rule.constantFolding_indexed n
  | countedLoop => exact Rule.countedLoop_indexed n

namespace Pipeline

/-- One node taken through the passes. -/
def applyIndexed : Pipeline → Node → Except Halt (Node × List Step)
  | [], n => return (n, [])
  | p :: ps, n => do
    match ← p.indexed n with
    | none => applyIndexed ps n
    | some m =>
      let (out, steps) ← applyIndexed ps m
      return (out, ⟨p, n, m⟩ :: steps)

mutual

/-- A walk of a tree: the children are gone through in order, and the node is offered with what came of
them. -/
def walkIndexed (p : Pipeline) : Node → Except Halt Walked
  | .construct form text span children => do
    let (children, visited, below) ← walkAllIndexed p children
    let (tree, steps) ← p.applyIndexed (.construct form text span children)
    return ⟨tree, visited + 1, below ++ steps⟩
  | .constant value text span children => do
    let (children, visited, below) ← walkAllIndexed p children
    let (tree, steps) ← p.applyIndexed (.constant value text span children)
    return ⟨tree, visited + 1, below ++ steps⟩
  | .counted loop generic text span children => do
    let (children, visited, below) ← walkAllIndexed p children
    let (tree, steps) ← p.applyIndexed (.counted loop generic text span children)
    return ⟨tree, visited + 1, below ++ steps⟩

/-- A walk of several trees. -/
def walkAllIndexed (p : Pipeline) : List Node → Except Halt (List Node × Nat × List Step)
  | [] => return ([], 0, [])
  | n :: ns => do
    let first ← walkIndexed p n
    let (others, visited, steps) ← walkAllIndexed p ns
    return (first.tree :: others, first.visited + visited, first.steps ++ steps)

end

theorem apply_indexed : ∀ (p : Pipeline) (n : Node), p.applyIndexed n = .ok (p.apply n)
  | [], _ => rfl
  | pass :: p, n => by
    rw [applyIndexed, apply, pass.rule_indexed, ok_bind]
    cases pass.rule n with
    | none => exact apply_indexed p n
    | some m =>
      simp only [apply_indexed p m]
      rfl

mutual

/-- No walk asks for a child that is missing, whatever the tree. -/
theorem walk_indexed (p : Pipeline) : ∀ n : Node, p.walkIndexed n = .ok (p.walk n)
  | .construct .. | .constant .. | .counted .. => by
    rw [walkIndexed, walk, walkAll_indexed, ok_bind]
    simp only [apply_indexed]
    rfl

theorem walkAll_indexed (p : Pipeline) : ∀ ns : List Node, p.walkAllIndexed ns = .ok (p.walkAll ns)
  | [] => rfl
  | n :: ns => by
    rw [walkAllIndexed, walkAll, walk_indexed, ok_bind, walkAll_indexed, ok_bind]
    rfl

end

end Pipeline

end ScriptTree
