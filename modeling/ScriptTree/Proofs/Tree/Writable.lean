import ScriptTree.Proofs.Floating.ReadBack
import ScriptTree.Proofs.Json.RoundTrip
import ScriptTree.Proofs.Optimize.Rewriting
import ScriptTree.Proofs.Tree.Spans
import ScriptTree.Tree.Encoding

/-!
Trees that can be written. Lines and columns must have 64 bits, constants must hold values that have a
written form, and the tree must not be nested deeper than a reader goes. Of a native loop it is the loop it
stands for that is written, so there the same is asked of this loop, and nothing of the native one.
-/

namespace ScriptTree

/-! ### What is there after writing -/

/-- A span as it is written: one that names no place is left out. -/
def Span.reread (s : Span) : Span := if s.start.isValid then s else .unknown

namespace Node

mutual

/-- The tree in which every native loop is the loop again that it stands for. -/
def restored : Node → Node
  | .construct form text span children => .construct form text span (restoredAll children)
  | .constant value text span children => .constant value text span (restoredAll children)
  | .counted _ generic _ _ _ => restored generic

def restoredAll : List Node → List Node
  | [] => []
  | n :: ns => restored n :: restoredAll ns

end

theorem restoredAll_eq (ns : List Node) : restoredAll ns = ns.map restored := by
  induction ns with
  | nil => rfl
  | cons n ns ih => rw [restoredAll, ih, List.map_cons]

theorem jsonAll_eq (ns : List Node) : jsonAll ns = ns.map toJson := by
  induction ns with
  | nil => rfl
  | cons n ns ih => rw [jsonAll, ih, List.map_cons, toJson]

/-- A tree without native loops is restored as it stands. -/
theorem Generic.restored {n : Node} (h : n.Generic) : n.restored = n := by
  induction n using Node.induction with
  | step n ih =>
    have hc : restoredAll n.children = n.children := by
      rw [restoredAll_eq]
      exact (List.map_congr_left fun c hc => ih c hc (h.part (mem_parts_child hc))).trans (List.map_id' _)
    cases n with
    | construct => exact congrArg (Node.construct _ _ _) hc
    | constant => exact congrArg (Node.constant _ _ _) hc
    | counted => exact absurd rfl (h _ (mem_parts_self _))

end Node

/-! ### What is written of spans that name no place -/

theorem ownMembers_reread (kind : Kind) (text : String) (span : Span) :
    Node.ownMembers kind text span.reread = Node.ownMembers kind text span := by
  unfold Span.reread
  split
  · rfl
  · rename_i h
    have hunknown : ¬Span.unknown.start.isValid = true := by decide
    rw [Node.ownMembers, Node.ownMembers, if_neg h, if_neg hunknown]

mutual

/-- Spans that name no place are not written, whatever else they are. -/
theorem members_reread : ∀ n : Node, (n.mapSpan Span.reread).members = n.members
  | .construct _ _ _ children => by
    rw [Node.mapSpan, Node.members, Node.members, ownMembers_reread, jsonAll_reread children]
  | .constant _ _ _ children => by
    rw [Node.mapSpan, Node.members, Node.members, ownMembers_reread, jsonAll_reread children]
  | .counted _ generic _ _ _ => by rw [Node.mapSpan, Node.members, Node.members, members_reread generic]

theorem jsonAll_reread : ∀ ns : List Node, Node.jsonAll (Node.mapSpanAll Span.reread ns) = Node.jsonAll ns
  | [] => rfl
  | n :: ns => by rw [Node.mapSpanAll, Node.jsonAll, Node.jsonAll, members_reread n, jsonAll_reread ns]

end

/-! ### Numbers are spelled as numbers -/

theorem Floating.spelled {f : FloatFormat} (x : Floating f) : x.toJson.Spelled := by
  cases x with
  | finite s units h => exact Floating.isNumeral_toText _ s h
  | infinite => trivial
  | nan => trivial

theorem Datum.spelled (d : Datum) : d.toJson.Spelled := by
  cases d with
  | number x => cases x with
    | int => exact ⟨trivial, isNumeral_toString _, trivial⟩
    | long => exact ⟨trivial, isNumeral_toString _, trivial⟩
    | float x => exact ⟨trivial, x.spelled, trivial⟩
    | double x => exact ⟨trivial, x.spelled, trivial⟩
  | bool | string => exact ⟨trivial, trivial, trivial⟩
  | undefined | void | host | script => exact ⟨trivial, trivial⟩

theorem Json.spelledMembers_append : ∀ {ms ns : List (String × Json)},
    Json.SpelledMembers (ms ++ ns) ↔ Json.SpelledMembers ms ∧ Json.SpelledMembers ns
  | [], _ => by simp [Json.SpelledMembers]
  | m :: ms, ns => by
    rw [List.cons_append, Json.SpelledMembers, Json.SpelledMembers, spelledMembers_append, and_assoc]

theorem Position.spelled (p : Position) : p.toJson.Spelled := by
  refine Json.spelledMembers_append.2 ⟨?_, isNumeral_toString _, isNumeral_toString _, trivial⟩
  split <;> simp [Json.SpelledMembers, Json.Spelled]

theorem Span.spelled (s : Span) : s.toJson.Spelled := ⟨s.start.spelled, s.stop.spelled, trivial⟩

theorem spelled_ownMembers (kind : Kind) (text : String) (span : Span) :
    Json.SpelledMembers (Node.ownMembers kind text span) := by
  refine Json.spelledMembers_append.2 ⟨Json.spelledMembers_append.2 ⟨⟨trivial, trivial⟩, ?_⟩, ?_⟩
  · split <;> simp [Json.SpelledMembers, Json.Spelled]
  · split
    · exact ⟨span.spelled, trivial⟩
    · trivial

theorem spelled_childMember {vs : List Json} (h : Json.SpelledAll vs) : Json.SpelledMembers (Node.childMember vs) := by
  cases vs with
  | nil => trivial
  | cons => exact ⟨h, trivial⟩

mutual

theorem spelled_members : ∀ n : Node, Json.SpelledMembers n.members
  | .construct _ _ _ children =>
    Json.spelledMembers_append.2 ⟨spelled_ownMembers _ _ _, spelled_childMember (spelled_jsonAll children)⟩
  | .constant value _ _ children =>
    Json.spelledMembers_append.2 ⟨Json.spelledMembers_append.2 ⟨spelled_ownMembers _ _ _,
      value.datum.spelled, trivial⟩, spelled_childMember (spelled_jsonAll children)⟩
  | .counted _ generic _ _ _ => Json.spelledMembers_append.2 ⟨spelled_members generic, trivial, trivial⟩

theorem spelled_jsonAll : ∀ ns : List Node, Json.SpelledAll (Node.jsonAll ns)
  | [] => trivial
  | n :: ns => ⟨spelled_members n, spelled_jsonAll ns⟩

end

/-! ### What can be written -/

/-- Numbers of so many bits, sign included. -/
def FitsBits (bits : Nat) (n : Int) : Prop :=
  -((1 <<< (bits - 1) : Nat) : Int) ≤ n ∧ n < ((1 <<< (bits - 1) : Nat) : Int)

instance (bits : Nat) (n : Int) : Decidable (FitsBits bits n) := inferInstanceAs (Decidable (_ ∧ _))

/-- A position that can be written. -/
def Position.InRange (p : Position) : Prop := FitsBits 64 p.line ∧ FitsBits 64 p.column

instance (p : Position) : Decidable p.InRange := inferInstanceAs (Decidable (_ ∧ _))

/-- A span that can be written where so many levels of nesting are left; with a valid start, it takes two
levels below the node's own. -/
structure Span.Writable (depth : Nat) (s : Span) : Prop where
  start : s.start.InRange
  stop : s.stop.InRange
  room : s.start.isValid = true → 3 ≤ depth

def Datum.Writable : Datum → Prop
  | .void | .bool _ | .number _ | .string _ => True
  | .undefined | .host _ | .script _ => False

/-- A tree that can be written where so many levels of nesting are left: each level of the tree takes two. -/
inductive Node.Writable : Nat → Node → Prop
  | construct {depth : Nat} {form : Form} {text : String} {span : Span} {children : List Node}
    (hdepth : 1 ≤ depth) (hspan : span.Writable depth) (hc : ∀ c ∈ children, Writable (depth - 2) c) :
    Writable depth (.construct form text span children)
  | constant {depth : Nat} {d : Datum} {text : String} {span : Span} (hdepth : 2 ≤ depth)
    (hspan : span.Writable depth) (hd : d.Writable) : Writable depth (.constant (.plain d) text span [])
  | counted {depth : Nat} {loop : CountedLoop} {generic : Node} {text : String} {span : Span} {children : List Node}
    (h : Writable depth generic) : Writable depth (.counted loop generic text span children)

variable {depth depth' : Nat} {n : Node}

theorem Span.Writable.mono {s : Span} (h : s.Writable depth) (hle : depth ≤ depth') : s.Writable depth' :=
  ⟨h.start, h.stop, fun hv => Nat.le_trans (h.room hv) hle⟩

theorem Span.writable_unknown : Span.unknown.Writable depth :=
  ⟨by decide, by decide, fun h => by cases h⟩

theorem Node.writable_construct_iff {form : Form} {text : String} {span : Span} {ns : List Node} :
    (Node.construct form text span ns).Writable depth ↔
      1 ≤ depth ∧ span.Writable depth ∧ ∀ c ∈ ns, c.Writable (depth - 2) :=
  ⟨fun | .construct hdepth hspan hc => ⟨hdepth, hspan, hc⟩, fun ⟨hdepth, hspan, hc⟩ => .construct hdepth hspan hc⟩

theorem Node.writable_constant_iff {d : Datum} {text : String} {span : Span} :
    (Node.constant (.plain d) text span []).Writable depth ↔ 2 ≤ depth ∧ span.Writable depth ∧ d.Writable :=
  ⟨fun | .constant hdepth hspan hd => ⟨hdepth, hspan, hd⟩, fun ⟨hdepth, hspan, hd⟩ => .constant hdepth hspan hd⟩

theorem Node.Writable.mono (h : n.Writable depth) : ∀ {depth' : Nat}, depth ≤ depth' → n.Writable depth' := by
  induction h with
  | construct hdepth hspan _ ih =>
    intro depth' hle
    exact .construct (Nat.le_trans hdepth hle) (hspan.mono hle) fun c hc => ih c hc (Nat.sub_le_sub_right hle 2)
  | constant hdepth hspan hd => exact fun hle => .constant (Nat.le_trans hdepth hle) (hspan.mono hle) hd
  | counted _ ih => exact fun hle => .counted (ih hle)

theorem Node.Writable.pos (h : n.Writable depth) : 1 ≤ depth := by
  induction h with
  | construct hdepth => exact hdepth
  | constant hdepth => exact Nat.le_of_succ_le hdepth
  | counted _ ih => exact ih

/-! ### How deep it is nested -/

theorem Json.depthMembers_append : ∀ ms ns : List (String × Json),
    Json.depthMembers (ms ++ ns) = max (Json.depthMembers ms) (Json.depthMembers ns)
  | [], _ => by simp [Json.depthMembers]
  | m :: ms, ns => by
    rw [List.cons_append, Json.depthMembers, Json.depthMembers, depthMembers_append ms ns, Nat.max_assoc]

theorem Position.depth_toJson (p : Position) : p.toJson.depth = 1 := by
  unfold Position.toJson
  split <;> rfl

theorem depth_ownMembers {span : Span} (kind : Kind) (text : String) (h : span.Writable depth) (hdepth : 1 ≤ depth) :
    Json.depthMembers (Node.ownMembers kind text span) + 1 ≤ depth := by
  have hroom := h.room
  unfold Node.ownMembers
  rw [Json.depthMembers_append, Json.depthMembers_append]
  split <;> split <;>
    simp_all [Json.depthMembers, Json.depth, Span.toJson, Position.depth_toJson]

theorem Datum.depth_toJson (d : Datum) : d.toJson.depth = 1 := by
  cases d with
  | number x =>
    cases x with
    | int => rfl
    | long => rfl
    | float x => cases x <;> rfl
    | double x => cases x <;> rfl
  | _ => rfl

theorem depth_childMember {vs : List Json} (h : ∀ v ∈ vs, v.depth + 2 ≤ depth) (hdepth : 1 ≤ depth) :
    Json.depthMembers (Node.childMember vs) + 1 ≤ depth := by
  cases vs with
  | nil => exact hdepth
  | cons v vs =>
    have hvs : Json.depthAll (v :: vs) ≤ depth - 2 := Json.depthAll_le fun u hu => Nat.le_sub_of_add_le (h u hu)
    have hv := h v (.head _)
    simp only [Node.childMember, Json.depthMembers, Json.depth]
    omega

/-- A tree that can be written is not nested too deep. -/
theorem Node.Writable.depth_toJson (h : n.Writable depth) : n.toJson.depth ≤ depth := by
  induction h with
  | @construct depth form text span children hdepth hspan hc ih =>
    have hown := depth_ownMembers (.form form) text hspan hdepth
    have hchildren : Json.depthMembers (Node.childMember (Node.jsonAll children)) + 1 ≤ depth := by
      refine depth_childMember (fun v hv => ?_) hdepth
      rw [Node.jsonAll_eq] at hv
      obtain ⟨c, hmem, rfl⟩ := List.mem_map.1 hv
      have := (hc c hmem).pos
      have := ih c hmem
      omega
    rw [Node.toJson, Node.members, Json.depth, Json.depthMembers_append]
    omega
  | @constant depth d text span hdepth hspan hd =>
    have hown := depth_ownMembers .constant text hspan (Nat.le_of_succ_le hdepth)
    have hvalue : Json.depthMembers [("value", d.toJson)] = 1 := by
      simp [Json.depthMembers, d.depth_toJson]
    rw [Node.toJson, Node.members, Json.depth, Json.depthMembers_append, Json.depthMembers_append,
      show (Literal.plain d).datum = d from rfl, hvalue]
    simp only [Node.jsonAll, Node.childMember, Json.depthMembers]
    omega
  | @counted depth loop generic text span children h ih =>
    have hpos := h.pos
    rw [Node.toJson, Json.depth] at ih
    rw [Node.toJson, Node.members, Json.depth, Json.depthMembers_append]
    simp only [Json.depthMembers, Json.depth]
    omega

end ScriptTree
