import ScriptTree.Proofs.Tree.Writable
import ScriptTree.Tree.Interchange

/-!
What is read where a tree was written. Every member is read into the field that it was written for, so all
comes back but for native loops, which come back as the loops they stand for, and spans that name no place.
-/

namespace ScriptTree

open Json

variable {depth : Nat} {n : Node}

/-! ### Numbers, positions and spans -/

namespace Json

theorem wholeNumber?_toString (n : Int) : wholeNumber? (toString n) = some n := by
  have hall : (Nat.toDigits 10 n.natAbs).all Char.isDigit = true :=
    List.all_eq_true.2 (isDigits_toDigits n.natAbs).2
  have hvalue := digitsValue_toDigits n.natAbs
  unfold wholeNumber?
  rw [toList_toString]
  by_cases hn : 0 ≤ n
  · obtain ⟨c, cs, hcs⟩ := List.exists_cons_of_ne_nil (isDigits_toDigits n.natAbs).1
    have hc : c.isDigit = true := (isDigits_toDigits n.natAbs).2 c (by simp [hcs])
    rw [hcs] at hall hvalue
    rw [if_pos hn, hcs]
    split
    · rename_i he
      obtain rfl := List.head_eq_of_cons_eq he
      cases hc
    · rw [if_pos hall, hvalue]
      congr 1
      omega
  · rw [if_neg hn]
    show (if _ then _ else _) = _
    rw [if_pos hall, hvalue]
    congr 1
    omega

theorem intoInt_toString {bits : Nat} {n : Int} (h : FitsBits bits n) (old : Int) :
    intoInt bits old (.num (toString n)) = some n := by
  simp only [intoInt, wholeNumber?_toString]
  exact if_pos h

theorem intoPosition_toJson {p : Position} (h : p.InRange) : intoPosition .unknown p.toJson = some p := by
  obtain ⟨file, line, column⟩ := p
  have hplace (file : String) : intoPosition ⟨file, 0, 0⟩
      (.obj [("line", .num (toString line)), ("column", .num (toString column))]) = some ⟨file, line, column⟩ := by
    show ((intoInt 64 0 (.num (toString line))).map _).bind _ = _
    rw [intoInt_toString h.1]
    show ((intoInt 64 0 (.num (toString column))).map _).bind _ = _
    rw [intoInt_toString h.2]
    rfl
  by_cases hfile : file = ""
  · subst hfile
    exact hplace ""
  · rw [Position.toJson, if_neg hfile]
    exact hplace file

theorem intoSpan?_toJson {s : Span} (h : s.Writable depth) : intoSpan? none s.toJson = some (some s) := by
  show Option.map some (((intoPosition .unknown s.start.toJson).map _).bind _) = _
  rw [intoPosition_toJson h.start]
  show Option.map some (((intoPosition .unknown s.stop.toJson).map _).bind _) = _
  rw [intoPosition_toJson h.stop]
  rfl

end Json

/-! ### Values -/

/-- A floating point number, or its word, is read back. -/
theorem floatingOf_toJson {f : FloatFormat} (hf : 0 < f.precision) (type : String) (x : Floating f) :
    floatingOf f type x.toJson = .ok x := by
  cases x with
  | finite s units h =>
    have hread : intoFloating (Floating.zero false : Floating f) (Floating.finite s units h).toJson =
        some (.finite s units h) := by
      rw [Floating.toJson, intoFloating, Floating.parse?_toText hf]
    rw [Floating.toJson] at hread ⊢
    rw [floatingOf, hread]
    rintro _ ⟨⟩
  | infinite s =>
    rw [Floating.toJson, floatingOf, (Floating.ofWord?_toText Node.dataLayout).2 s]
    rintro _ _ _ ⟨⟩
  | nan =>
    rw [Floating.toJson, floatingOf, (Floating.ofWord?_toText Node.dataLayout).1]
    rintro _ _ _ ⟨⟩

theorem fitsBits_int (n : Int32) : FitsBits 32 n.toInt := ⟨n.le_toInt, n.toInt_lt⟩

theorem fitsBits_long (n : Int64) : FitsBits 64 n.toInt := ⟨n.le_toInt, n.toInt_lt⟩

/-- The value of a constant is read back. -/
theorem intoValue?_toJson {d : Datum} (h : d.Writable) :
    ∃ v : OuterValue, intoValue? none d.toJson = some (some v) ∧ v.datum = .ok d := by
  cases d with
  | void => exact ⟨⟨"void", none⟩, rfl, rfl⟩
  | bool b => exact ⟨⟨"bool", some (.bool b)⟩, rfl, rfl⟩
  | string s => exact ⟨⟨"string", some (.str s)⟩, rfl, rfl⟩
  | number x =>
    refine ⟨⟨x.type.name, some x.toJson⟩, rfl, ?_⟩
    cases x with
    | int n =>
      have hread := intoInt_toString (fitsBits_int n) 0
      simp only [OuterValue.datum, Number.type, NumericType.name, Number.toJson, Option.bind_some, hread]
      exact congrArg (fun n => Except.ok (Datum.number (.int n))) (Int32.ofInt_toInt n)
    | long n =>
      have hread := intoInt_toString (fitsBits_long n) 0
      simp only [OuterValue.datum, Number.type, NumericType.name, Number.toJson, Option.bind_some, hread]
      exact congrArg (fun n => Except.ok (Datum.number (.long n))) (Int64.ofInt_toInt n)
    | float x =>
      show (do return Datum.number (.float (← floatingOf .single "float" x.toJson)) : Except TreeDefect Datum) = _
      rw [floatingOf_toJson (by decide)]
      rfl
    | double x =>
      show (do return Datum.number (.double (← floatingOf .double "double" x.toJson)) : Except TreeDefect Datum) = _
      rw [floatingOf_toJson (by decide)]
      rfl
  | undefined | host | script => exact h.elim

/-! ### Nodes -/

theorem intoMembers_cons (key : String) (v : Json) (ms : List (String × Json)) (o : OuterNode) :
    intoMembers ((key, v) :: ms) o = (intoMember (fun old => intoChildList v old) key v o).bind (intoMembers ms) := by
  rw [intoMembers]
  cases intoMember (fun old => intoChildList v old) key v o <;> rfl

theorem intoMembers_append : ∀ (ms ms' : List (String × Json)) (o : OuterNode),
    intoMembers (ms ++ ms') o = (intoMembers ms o).bind (intoMembers ms')
  | [], _, _ => rfl
  | (key, v) :: ms, ms', o => by
    rw [List.cons_append, intoMembers_cons, intoMembers_cons, Option.bind_assoc]
    exact congrArg (Option.bind _) (funext (intoMembers_append ms ms'))

/-- What is read of the members that describe a node itself. -/
theorem intoMembers_ownMembers (kind : Kind) (text : String) {span : Span} (h : span.Writable depth) :
    intoMembers (Node.ownMembers kind text span) .blank =
      some (.mk kind.name text (if span.start.isValid then some span else none) none [] []) := by
  have hspan : intoMembers (if span.start.isValid then [("span", span.toJson)] else [])
      (.mk kind.name text none none [] []) =
        some (.mk kind.name text (if span.start.isValid then some span else none) none [] []) := by
    split
    · rw [intoMembers_cons]
      show ((intoSpan? none span.toJson).map _).bind _ = _
      rw [intoSpan?_toJson h]
      rfl
    · rfl
  rw [Node.ownMembers, intoMembers_append]
  by_cases htext : text = ""
  · subst htext
    exact hspan
  · rw [if_neg htext]
    exact hspan

theorem Kind.ofName?_name (kind : Kind) : Kind.ofName? kind.name = some kind := by
  cases kind with
  | form f => cases f <;> decide
  | constant => decide
  | specialized => decide

/-- What a span is after it was written if it names a place. -/
theorem Span.getD_written (s : Span) : (if s.start.isValid then some s else none).getD .unknown = s.reread := by
  rw [Span.reread]
  split <;> rfl

/-- Trees that are read back one by one are read back as children. -/
theorem intoChildren_jsonAll {f : Node → Node} : ∀ {ns : List Node},
    (∀ n ∈ ns, ∃ o, intoMembers n.members .blank = some o ∧ o.build = .ok (f n)) →
      ∃ os : List (Option OuterNode), intoChildren (Node.jsonAll ns) [] = some os ∧
        os.length = (Node.jsonAll ns).length ∧ OuterNode.buildAll os = .ok (ns.map f)
  | [], _ => ⟨[], rfl, rfl, rfl⟩
  | n :: ns, h => by
    obtain ⟨o, hread, hbuild⟩ := h n (.head _)
    obtain ⟨os, hreads, hlength, hbuilds⟩ := intoChildren_jsonAll fun m hm => h m (.tail _ hm)
    refine ⟨some o :: os, ?_, ?_, ?_⟩
    · rw [Node.jsonAll, intoChildren]
      show (((intoMembers n.members .blank).map some).bind fun first =>
        (intoChildren (Node.jsonAll ns) []).bind fun others => some (first :: others)) = _
      rw [hread, hreads]
      rfl
    · rw [Node.jsonAll, List.length_cons, List.length_cons, hlength]
    · rw [OuterNode.buildAll, hbuild, hbuilds]
      rfl

/-- What is read of the member for children. -/
theorem intoMembers_childMember {f : Node → Node} {ns : List Node} (kind text : String) (span : Option Span)
    (value : Option OuterValue)
    (h : ∀ n ∈ ns, ∃ o, intoMembers n.members .blank = some o ∧ o.build = .ok (f n)) :
    ∃ os, intoMembers (Node.childMember (Node.jsonAll ns)) (.mk kind text span value [] []) =
      some (.mk kind text span value os []) ∧ OuterNode.buildAll os = .ok (ns.map f) := by
  obtain ⟨os, hreads, hlength, hbuilds⟩ := intoChildren_jsonAll h
  refine ⟨os, ?_, hbuilds⟩
  cases hvs : Node.jsonAll ns with
  | nil =>
    rw [hvs] at hlength
    rw [List.eq_nil_of_length_eq_zero hlength]
    rfl
  | cons v vs =>
    rw [hvs] at hreads hlength
    show intoMembers [("children", .arr (v :: vs))] _ = _
    rw [intoMembers_cons]
    show ((intoChildList (.arr (v :: vs)) ⟨[], []⟩).map _).bind _ = _
    rw [intoChildList, if_neg (by simp)]
    show (((intoChildren (v :: vs) []).map _).map _).bind _ = _
    rw [hreads]
    show intoMembers [] (.mk kind text span value (os.take (v :: vs).length) (os.drop (v :: vs).length)) = _
    rw [← hlength, List.take_length, List.drop_length]
    rfl

/-- A tree that is written is read back, with its native loops restored and spans that name no place left out. -/
theorem intoMembers_members (h : n.Writable depth) : ∃ o, intoMembers n.members .blank = some o ∧
    o.build = .ok (n.restored.mapSpan Span.reread) := by
  induction h with
  | @construct depth form text span children _ hspan _ ih =>
    obtain ⟨os, hread, hbuild⟩ := intoMembers_childMember (Kind.form form).name text
      (if span.start.isValid then some span else none) none ih
    refine ⟨.mk (Kind.form form).name text (if span.start.isValid then some span else none) none os [], ?_, ?_⟩
    · rw [Node.members, intoMembers_append, intoMembers_ownMembers _ _ hspan]
      exact hread
    · rw [OuterNode.build, Kind.ofName?_name, Span.getD_written, hbuild, Node.restored, Node.restoredAll_eq,
        Node.mapSpan, Node.mapSpanAll_eq, List.map_map]
      rfl
  | @constant depth d text span _ hspan hd =>
    obtain ⟨v, hread, hdatum⟩ := intoValue?_toJson hd
    refine ⟨.mk Kind.constant.name text (if span.start.isValid then some span else none) (some v) [] [], ?_, ?_⟩
    · rw [Node.members, intoMembers_append, intoMembers_append, intoMembers_ownMembers _ _ hspan]
      show ((intoMembers [("value", d.toJson)] _).bind _) = _
      rw [intoMembers_cons]
      show (((intoValue? none d.toJson).map _).bind _).bind _ = _
      rw [hread]
      rfl
    · rw [OuterNode.build, Kind.ofName?_name, Span.getD_written]
      show (do let d ← v.datum; return Node.ofLiteral text span.reread (.plain d)) = _
      rw [hdatum]
      rfl
  | counted _ ih =>
    obtain ⟨o, hread, hbuild⟩ := ih
    refine ⟨o, ?_, hbuild⟩
    rw [Node.members, intoMembers_append, hread]
    cases o
    rfl

/-- What is written is read back. -/
theorem decode_encode (h : n.Writable nestingLimit) :
    Node.decode n.encode = .ok (n.restored.mapSpan Span.reread) := by
  obtain ⟨o, hread, hbuild⟩ := intoMembers_members h
  have hnode : intoNode .blank n.toJson = some o := hread
  have hspelled : n.toJson.Spelled := spelled_members n
  rw [Node.decode, Node.encode, parse_pretty hspelled h.depth_toJson]
  dsimp only
  rw [Node.ofJson, hnode]
  dsimp only
  rw [hbuild]

end ScriptTree
