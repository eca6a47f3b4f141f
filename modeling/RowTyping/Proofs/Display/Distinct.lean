import RowTyping.Proofs.Naming
import RowTyping.Proofs.Unify.Sequence
import RowTyping.Types.Printer

/-!
# Types are told apart by their texts

A message about two types writes both with one set of names. Different types may get the same text
in two ways (`renderPair_collisions`): a function without parameters is written with a `Unit`
parameter, and in a tuple a bare name after a function type reads as a further label of its row.
These are the only ones: types in normal form without such a tuple have the same text if and only if
they are equal up to `Unit` parameters (`renderPair_eq_iff`).

The proof reads a text back (`Reader.read`). A written type is made of words and of the marks
between them; what is read depends on the words since the last mark and on the lists that are still
open.
-/

namespace RowTyping

open List

/-! ## Plain types -/

/-- Whether a character can be part of a word. -/
def isWordChar (c : Char) : Bool :=
  c ∉ [' ', '(', ')', ',']

/-- A name of a constructor or an effect: it does not start with a small letter and has none of the
characters that hold a written type together. -/
def isName (name : String) : Bool :=
  name.toList.head?.any (!·.isLower) && name.toList.all fun c => isWordChar c && c ≠ '-'

/-- Whether the row is written with a label at its end. -/
def Row.endsInLabel (r : Row) : Bool :=
  r.isClosed && !r.isPure

namespace Ty

/-- Whether the type is written with a label at its end. -/
def endsInLabel : Ty → Bool
  | .fn _ _ effects => effects.endsInLabel
  | .prim _ | .var _ | .named _ _ | .app _ _ | .tuple _ => false

/-- The name of a type that is written like a label. -/
def bareName? : Ty → Option String
  | .prim p => some p.name
  | .named name [] => some name
  | .named _ (_ :: _) | .var _ | .app _ _ | .fn _ _ _ | .tuple _ => none

/-- Types in normal form: applications have arguments and are not applied further, tuples have two
elements or more, and constructors are not named like primitive types. In addition, no tuple has a
bare name after a function type that is written with a label at its end. -/
inductive Plain : Ty → Prop
  | prim (p : Prim) : Plain (.prim p)
  | var (v : TypeVar) : Plain (.var v)
  | named {name : String} {args : List Ty} (hname : isName name) (hnew : Prim.ofName? name = none)
    (hargs : ∀ t ∈ args, Plain t) : Plain (.named name args)
  | app {head : Ty} {args : List Ty} (hhead : Plain head) (hnew : head.IsHead) (hne : args ≠ [])
    (hargs : ∀ t ∈ args, Plain t) : Plain (.app head args)
  | fn {params : List Ty} {result : Ty} {effects : Row} (hparams : ∀ t ∈ params, Plain t)
    (hresult : Plain result) (hlabels : ∀ label ∈ effects.labels, isName label) :
    Plain (.fn params result effects)
  | tuple {elems : List Ty} (hlen : 2 ≤ elems.length)
    (hapart : elems.IsChain fun t u => t.endsInLabel → u.bareName? = none)
      (helems : ∀ t ∈ elems, Plain t) :
    Plain (.tuple elems)

/-- The parameters that are written: the unit type if there are none. -/
def writtenParams (params : List Ty) : List Ty :=
  if params.isEmpty then [.unit] else params

theorem forall_writtenParams {P : Ty → Prop} (hunit : P .unit) {params : List Ty}
    (h : ∀ t ∈ params, P t) :
    ∀ t ∈ writtenParams params, P t := by
  rw [writtenParams]
  split
  · exact forall_mem_singleton.mpr hunit
  · exact h

mutual

/-- The type with a `Unit` parameter for every function that has no parameters. -/
def withUnit : Ty → Ty
  | .prim p => .prim p
  | .var v => .var v
  | .named name args => .named name (withUnitAll args)
  | .app head args => .app head.withUnit (withUnitAll args)
  | .fn params result effects => .fn (writtenParams (withUnitAll params)) result.withUnit effects
  | .tuple elems => .tuple (withUnitAll elems)

/-- Every type of a list with a `Unit` parameter where there is none. -/
def withUnitAll : List Ty → List Ty
  | [] => []
  | t :: ts => t.withUnit :: withUnitAll ts

end

theorem withUnitAll_eq_map (ts : List Ty) : withUnitAll ts = ts.map withUnit := by
  induction ts with
  | nil => rfl
  | cons t ts ih => rw [withUnitAll, ih, map_cons]

theorem bareName?_withUnit (t : Ty) : t.withUnit.bareName? = t.bareName? := by
  cases t with
  | named name args => cases args <;> rfl
  | prim | var | app | fn | tuple => rfl

theorem endsInLabel_withUnit (t : Ty) : t.withUnit.endsInLabel = t.endsInLabel := by
  cases t <;> rfl

theorem withUnit_fn (params : List Ty) (result : Ty) (effects : Row) :
    (fn params result effects).withUnit =
      .fn ((writtenParams params).map withUnit) result.withUnit effects := by
  cases params <;> simp [withUnit, writtenParams, withUnitAll_eq_map, unit]

end Ty

/-! ## Words -/

/-- A text that is read as one word. -/
structure IsWord (w : String) : Prop where
  ne_nil : w.toList ≠ []
  all : ∀ c ∈ w.toList, isWordChar c

/-- The words between the parts of a function type. -/
def keywords : List String := ["-", "->", "pure", "can"]

theorem isWord_keyword {w : String} (h : w ∈ keywords) : IsWord w := by
  have hkeyword : ∀ w ∈ keywords, w.toList ≠ [] ∧ w.toList.all isWordChar := by decide
  exact ⟨(hkeyword w h).1, all_eq_true.mp (hkeyword w h).2⟩

theorem Prim.isName_name (p : Prim) : isName p.name := by
  cases p <;> decide

theorem isWord_of_isName {name : String} (h : isName name) : IsWord name ∧ name ∉ keywords := by
  refine ⟨?_, fun hmem => ?_⟩
  · simp only [isName, Bool.and_eq_true, all_eq_true] at h
    exact ⟨fun hnil => by simp [hnil] at h, fun c hc => (h.2 c hc).1⟩
  · have hkeyword : ∀ w ∈ keywords, isName w = false := by decide
    simp [hkeyword name hmem] at h

/-- Canonical names are neither names of constructors nor keywords. -/
theorem isWord_letterName (i : Nat) :
    IsWord (letterName i) ∧ letterName i ∉ keywords ∧ ¬ isName (letterName i) := by
  have hletter : ∀ k < 26, (Char.ofNat ('a'.toNat + k)).isLower ∧
      isWordChar (Char.ofNat ('a'.toNat + k)) := by
    decide
  obtain ⟨c, ds, heq, hc, hds⟩ :
    ∃ c ds, (letterName i).toList = c :: ds ∧ (c.isLower ∧ isWordChar c) ∧
      ∀ d ∈ ds, d.isDigit := by
    refine ⟨_, _, toList_letterName i, hletter _ (Nat.mod_lt _ (by decide)), fun d hd => ?_⟩
    split at hd
    · cases hd
    · rw [Nat.toList_repr] at hd
      exact Nat.isDigit_of_mem_toDigits (by decide) (by decide) hd
  have hdigit (d : Char) (hd : d.isDigit) : isWordChar d := by
    have hspecial : ∀ c ∈ [' ', '(', ')', ','], !c.isDigit := all_eq_true.mp (by decide)
    simpa only [isWordChar, decide_eq_true_eq] using fun hno => absurd hd
      (by simpa using hspecial d hno)
  refine ⟨⟨by simp [heq], ?_⟩, fun hmem => ?_, by simp [isName, heq, hc.1]⟩
  · exact heq ▸ forall_mem_cons.mpr ⟨hc.2, fun d hd => hdigit d (hds d hd)⟩
  · have hkeyword : ∀ w ∈ keywords,
        w.toList.head?.any Char.isLower → ¬ w.toList.tail.all Char.isDigit := by decide
    exact hkeyword _ hmem (by simp [heq, hc.1]) (by simpa [heq] using hds)

namespace VarNames

variable {xs : List Var} {x y : Var}

theorem nameOf_canonical (hx : x ∈ xs) :
    (canonical xs).nameOf x = letterName ((distinct xs).idxOf x) := by
  simp only [nameOf, get?_canonical hx, Option.getD_some]

theorem isWord_nameOf (hx : x ∈ xs) : IsWord ((canonical xs).nameOf x) ∧
    (canonical xs).nameOf x ∉ keywords ∧ ¬ isName ((canonical xs).nameOf x) :=
  nameOf_canonical hx ▸ isWord_letterName _

theorem nameOf_inj (hx : x ∈ xs) (hy : y ∈ xs)
    (h : (canonical xs).nameOf x = (canonical xs).nameOf y) :
    x = y := by
  rw [nameOf_canonical hx, nameOf_canonical hy] at h
  exact (idxOf_inj (mem_distinct.mpr hx)).mp (letterName_injective h)

end VarNames

/-! ## Reading a type -/

/-- A list of types that is being read. -/
structure Level where
  /-- The types before the current one. -/
  elems : List Ty := []
  /-- The parameters of the current type. -/
  params : List Ty := []
  /-- The operands of the current parameter or result. -/
  pieces : List Ty := []
  /-- The row of the current type. -/
  row : Option Row := none

/-- Put a type together from its operands. -/
def assemble : List Ty → Ty
  | [] => .unit
  | [t] => t
  | .named name [] :: args => .named name args
  | head :: args => .app head args

section

variable (xs : List Var)

/-- The variable with the given canonical name. -/
def varNamed? (w : String) : Option Var :=
  xs.find? fun x => (VarNames.canonical xs).nameOf x = w

/-- Read a further label, or the tail. -/
def Row.extend (r : Row) (w : String) : Row :=
  match varNamed? xs w with
  | some (.effect e) => { r with tail := some e }
  | _ => { r with labels := r.labels ++ [w] }

/-- Read a further type of a list. A bare name goes to a row that may go on. -/
def joinType (ts : List Ty) (t : Ty) : List Ty :=
  match ts.getLast?, t.bareName? with
  | some (.fn params result row), some w =>
    if row.endsInLabel then ts.dropLast ++ [.fn params result (row.extend xs w)] else ts ++ [t]
  | _, _ => ts ++ [t]

namespace Level

/-- The types of a list. -/
def types (l : Level) : List Ty :=
  joinType xs l.elems <| match l.row with
    | none => assemble l.pieces
    | some r => .fn l.params (assemble l.pieces) r

/-- Read a further operand. -/
def push (l : Level) (t : Ty) : Level :=
  { l with pieces := l.pieces ++ [t] }

/-- Read a name. -/
def name (l : Level) (w : String) : Level :=
  match l.row, varNamed? xs w with
  | some r, _ => { l with row := some (r.extend xs w) }
  | none, some (.type v) => l.push (.var v)
  | none, _ => l.push (((Prim.ofName? w).map Ty.prim).getD (.named w []))

/-- Read a word. -/
def word (l : Level) (w : String) : Level :=
  if w = "-" ∨ w = "->" then { l with params := l.params ++ [assemble l.pieces], pieces := [] }
  else if w = "pure" ∨ w = "can" then { l with row := some .pure }
  else l.name xs w

end Level

end

/-- The list that is being read, and those it is part of. -/
structure Reader where
  /-- The innermost list. -/
  level : Level
  /-- The lists around it. -/
  outer : List Level

namespace Reader

/-- Read a word, if there is one. -/
def word (xs : List Var) (s : Reader) (w : List Char) : Reader :=
  if w.isEmpty then s else { s with level := s.level.word xs (String.ofList w) }

/-- Read a blank, a comma or a parenthesis. -/
def mark (xs : List Var) (s : Reader) : Char → Reader
  | ',' => { s with level := { elems := s.level.types xs } }
  | '(' => { level := {}, outer := s.level :: s.outer }
  | ')' =>
    match s.outer, s.level.types xs with
    | l :: ls, [t] => { level := l.push t, outer := ls }
    | l :: ls, ts => { level := l.push (.tuple ts), outer := ls }
    | [], _ => s
  | _ => s

/-- Read a text that starts within a word. -/
def readFrom (xs : List Var) (w : List Char) (s : Reader) : List Char → Reader
  | [] => s.word xs w
  | c :: cs => if isWordChar c then readFrom xs (w ++
      [c]) s cs else readFrom xs [] ((s.word xs w).mark xs c) cs

/-- Read a text. -/
def read (xs : List Var) (s : Reader) (text : String) : Reader :=
  s.readFrom xs [] text.toList

variable {xs : List Var} {s : Reader}

/-- What stands before a mark and what stands after it are read one after the other. -/
theorem readFrom_mark (w a k : List Char) {c : Char} (hc : isWordChar c = false) :
    s.readFrom xs w (a ++ c :: k) = ((s.readFrom xs w a).mark xs c).readFrom xs [] k := by
  induction a generalizing w s with
  | nil => simp [readFrom, hc]
  | cons d a ih =>
    rw [cons_append, readFrom, readFrom, ih, ih]
    split <;> rfl

theorem read_empty : s.read xs "" = s := rfl

theorem read_word {w : String} (hw : IsWord w) :
    s.read xs w = { s with level := s.level.word xs w } := by
  have h (v w : List Char) (hw : ∀ c ∈ w, isWordChar c) :
      s.readFrom xs v w = s.word xs (v ++ w) := by
    induction w generalizing v with
    | nil => simp [readFrom]
    | cons c w ih =>
      rw [readFrom, if_pos (hw c (.head _)), ih _ fun d hd => hw d (.tail _ hd)]; simp
  rw [read, h _ _ hw.all, word, nil_append, if_neg (by simpa using hw.ne_nil), String.ofList_toList]

theorem read_blank (a k : String) : s.read xs (a ++ " " ++ k) = (s.read xs a).read xs k := by
  rw [read, show (a ++ " " ++ k).toList = a.toList ++ ' ' ::
    k.toList by simp, readFrom_mark _ _ _ rfl]
  rfl

theorem read_comma (a k : String) :
    s.read xs (a ++ ", " ++ k) = ((s.read xs a).mark xs ',').read xs k := by
  rw [read, show (a ++ ", " ++ k).toList = a.toList ++ ',' :: ([] ++ ' ' :: k.toList) by simp,
    readFrom_mark _ _ _ rfl, readFrom_mark _ _ _ rfl]
  rfl

theorem read_parentheses (a : String) : s.read xs ("(" ++ a ++ ")") =
    (Reader.read xs { level := {}, outer := s.level :: s.outer } a).mark xs ')' := by
  rw [read, show ("(" ++ a ++ ")").toList = [] ++ '(' :: (a.toList ++ ')' :: []) by simp,
    readFrom_mark _ _ _ rfl, readFrom_mark _ _ _ rfl]
  rfl

end Reader

section

variable {xs : List Var} {w : String}

theorem varNamed?_of_isName (hw : isName w) : varNamed? xs w = none := by
  refine find?_eq_none.mpr fun x hx h => (VarNames.isWord_nameOf hx).2.2 ?_
  rwa [of_decide_eq_true h]

theorem varNamed?_nameOf {x : Var} (hx : x ∈ xs) :
    varNamed? xs ((VarNames.canonical xs).nameOf x) = some x := by
  cases hy : varNamed? xs ((VarNames.canonical xs).nameOf x) with
  | none => exact absurd (decide_eq_true rfl) (find?_eq_none.mp hy x hx)
  | some y => rw [VarNames.nameOf_inj (mem_of_find?_eq_some hy) hx (by simpa using find?_some hy)]

theorem Level.word_of_notMem_keywords (hw : w ∉ keywords) (l : Level) :
    l.word xs w = l.name xs w := by
  simp only [keywords, mem_cons, not_mem_nil, or_false, not_or] at hw
  simp only [word, hw, or_self, if_false]

end

namespace Ty

section Text

variable (names : VarNames)

/-- Write a type as a parameter or a result. -/
def renderPart (t : Ty) : String :=
  parenthesizeIf t.isFn (t.render names)

/-- The operands that a parameter or a result is written with. -/
def pieces : Ty → List Ty
  | .named name args => .named name [] :: args
  | .app head args => head :: args
  | .prim p => [.prim p]
  | .var v => [.var v]
  | .fn params result effects => [.fn params result effects]
  | .tuple elems => [.tuple elems]

theorem renderAll_eq_map (wrap : Ty → Bool) (ts : List Ty) :
    renderAll names wrap ts = ts.map fun t => parenthesizeIf (wrap t) (t.render names) := by
  induction ts with
  | nil => rfl
  | cons t ts ih => rw [renderAll, ih, map_cons]

theorem renderOperand_named_nil (name : String) : renderOperand names (.named name []) = name := by
  simp [renderOperand, isAtomic, parenthesizeIf, render, renderAll]

theorem renderPart_eq (t : Ty) :
    t.renderPart names = " ".intercalate (t.pieces.map (renderOperand names)) := by
  cases t with
  | named name args =>
    rw [pieces, map_cons, renderOperand_named_nil, renderPart, render, renderAll_eq_map]
    rfl
  | app => rw [renderPart, render, renderAll_eq_map]; rfl
  | prim | var | fn | tuple => exact String.intercalate_singleton.symm

theorem render_fn (params : List Ty) (result : Ty) (effects : Row) :
    (fn params result effects).render names =
      " - ".intercalate ((writtenParams params).map (renderPart names)) ++ " -> " ++
        (result.renderPart names ++ " " ++ effects.render names) := by
  rw [render, renderAll_eq_map, writtenParams, ← String.append_assoc, ← String.append_assoc]
  split <;> rfl

end Text

end Ty

/-- A bare name is read as a type of its own, unless it goes to a row. -/
theorem joinType_eq_append {xs : List Var} {ts : List Ty} {t : Ty}
    (h : ∀ u ∈ ts.getLast?, u.endsInLabel → t.bareName? = none) : joinType xs ts t = ts ++ [t] := by
  unfold joinType
  split
  · next hlast hname =>
    refine if_neg fun hends => ?_
    simp [h _ hlast hends] at hname
  · rfl

/-- Labels and tails. -/
structure IsItem (xs : List Var) (w : String) : Prop where
  isWord : IsWord w
  notMem_keywords : w ∉ keywords
  ne_type : ∀ v, varNamed? xs w ≠ some (.type v)

namespace IsItem

variable {xs : List Var} {w : String}

theorem of_isName (hw : isName w) : IsItem xs w :=
  ⟨(isWord_of_isName hw).1, (isWord_of_isName hw).2, by simp [varNamed?_of_isName hw]⟩

theorem of_effect {e : EffectVar} (he : .effect e ∈ xs) :
    IsItem xs ((VarNames.canonical xs).nameOf (.effect e)) :=
  ⟨(VarNames.isWord_nameOf he).1, (VarNames.isWord_nameOf he).2.1, by simp [varNamed?_nameOf he]⟩

/-- After a comma, an item goes to the row before it. -/
theorem types_word (hw : IsItem xs w) {ts params : List Ty} {result : Ty} {r : Row}
    (hr : r.endsInLabel) :
    (Level.word xs { elems := ts ++ [.fn params result r] } w).types xs =
      ts ++ [.fn params result (r.extend xs w)] := by
  have hname : (((Prim.ofName? w).map Ty.prim).getD (.named w [])).bareName? = some w := by
    unfold Prim.ofName?
    split <;> rfl
  have htypes : (Level.word xs { elems := ts ++ [.fn params result r] } w).types xs =
      joinType xs (ts ++ [.fn params result r])
        (((Prim.ofName? w).map Ty.prim).getD (.named w [])) := by
    rw [Level.word_of_notMem_keywords hw.notMem_keywords, Level.name]
    split
    · contradiction
    · next hv => exact absurd hv (hw.ne_type _)
    · rfl
  simp [htypes, joinType, hname, hr]

end IsItem

namespace Reader

variable {xs : List Var} {s : Reader}

/-- Read the labels and the tail of a row. -/
theorem read_items {labels : List String} {tail : Option EffectVar}
    (hlabels : ∀ label ∈ labels, isName label)
    (htail : ∀ e, tail = some e → .effect e ∈ xs) (hne : labels ≠ [] ∨ tail ≠ none)
    {ts params : List Ty} {result : Ty} (before : List String) {l : Level} (hl : ∀ w, IsItem xs w →
      (l.word xs w).types xs = ts ++ [.fn params result (Row.extend xs { labels := before } w)])
    (outer : List Level) :
    ∃ l' : Level, read xs ⟨l, outer⟩ (", ".intercalate (labels ++
      (tail.map fun e => (VarNames.canonical xs).nameOf (.effect e)).toList)) = ⟨l', outer⟩ ∧
      l'.types xs = ts ++ [.fn params result { labels := before ++ labels, tail }] := by
  induction labels generalizing before l with
  | nil =>
    obtain ⟨e, rfl⟩ := Option.ne_none_iff_exists'.mp (hne.resolve_left (by simp))
    have he := htail e rfl
    refine ⟨_, by simp [read_word (VarNames.isWord_nameOf he).1]; rfl, ?_⟩
    rw [hl _ (.of_effect he), Row.extend, varNamed?_nameOf he]
    simp
  | cons label labels ih =>
    rw [forall_mem_cons] at hlabels
    have hlabel := hl label (.of_isName hlabels.1)
    simp only [Row.extend, varNamed?_of_isName hlabels.1] at hlabel
    have hread : read xs ⟨l, outer⟩ label = _ := read_word (isWord_of_isName hlabels.1).1
    by_cases hlast : labels = [] ∧ tail = none
    · obtain ⟨rfl, rfl⟩ := hlast
      exact ⟨_, by simp [hread], hlabel⟩
    · rw [cons_append, String.intercalate_cons_of_ne_nil (by simpa using hlast), read_comma, hread,
        mark, hlabel]
      have hends : Row.endsInLabel { labels := before ++ [label] } := by
        simp [Row.endsInLabel, Row.isClosed, Row.isPure]
      obtain ⟨l', hl', htypes⟩ := ih hlabels.2 (by tauto) _ fun w hw => hw.types_word hends
      exact ⟨l', hl', by rw [htypes]; simp⟩

/-- Read a row after the result of a function. -/
theorem read_row {r : Row} (hlabels : ∀ label ∈ r.labels, isName label)
    (htail : ∀ e, r.tail = some e → .effect e ∈ xs) (l : Level) (outer : List Level) :
    ∃ l' : Level, read xs ⟨l, outer⟩ (r.render (.canonical xs)) = ⟨l', outer⟩ ∧
      l'.types xs = l.elems ++ [.fn l.params (assemble l.pieces) r] := by
  obtain ⟨labels, tail⟩ := r
  by_cases hpure : labels = [] ∧ tail = none
  · obtain ⟨rfl, rfl⟩ := hpure
    rw [Row.render, if_pos (by rfl), read_word (w := "pure") (isWord_keyword (by decide))]
    exact ⟨_, rfl, joinType_eq_append fun _ _ _ => rfl⟩
  · rw [Row.render, if_neg (by simpa [Row.isPure] using hpure), show "can " = "can" ++ " " from rfl,
      read_blank,
      read_word (w := "can") (isWord_keyword (by decide))]
    refine read_items hlabels htail (by tauto) [] (fun w hw => ?_) outer
    rw [Level.word_of_notMem_keywords hw.notMem_keywords]
    exact joinType_eq_append fun _ _ _ => rfl

/-! ### Types -/

/-- The type is read as a further operand. -/
def ReadsOperand (xs : List Var) (t : Ty) : Prop :=
  ∀ s : Reader, s.level.row = none →
    s.read xs (t.renderOperand (.canonical xs)) = { s with level := s.level.push t.withUnit }

/-- The type is read as a parameter or a result. -/
def ReadsPart (xs : List Var) (t : Ty) : Prop :=
  ∀ elems params outer, ∃ pieces, assemble pieces = t.withUnit ∧
    read xs ⟨{ elems, params }, outer⟩ (t.renderPart (.canonical xs)) =
      ⟨{ elems, params, pieces }, outer⟩

/-- The type is read as a further member of a list. -/
def ReadsType (xs : List Var) (t : Ty) : Prop :=
  ∀ elems outer, (∀ u ∈ elems.getLast?, u.endsInLabel → t.bareName? = none) →
    ∃ l : Level, read xs ⟨{ elems }, outer⟩ (t.render (.canonical xs)) = ⟨l, outer⟩ ∧
      l.types xs = elems ++ [t.withUnit]

/-- The type is read wherever it can stand. -/
structure Reads (xs : List Var) (t : Ty) : Prop where
  operand : ReadsOperand xs t
  part : ReadsPart xs t
  type : ReadsType xs t

section Parts

variable {t : Ty} {ts : List Ty}

theorem read_operands (h : ∀ t ∈ ts, ReadsOperand xs t) (hrow : s.level.row = none) :
    s.read xs (" ".intercalate (ts.map (Ty.renderOperand (.canonical xs)))) =
      { s with level := { s.level with pieces := s.level.pieces ++ ts.map Ty.withUnit } } := by
  induction ts generalizing s with
  | nil => simp [read_empty]
  | cons t ts ih =>
    rw [forall_mem_cons] at h
    by_cases hts : ts = []
    · simp [hts, h.1 s hrow, Level.push]
    · rw [map_cons, String.intercalate_cons_of_ne_nil (by simpa using hts), read_blank,
        h.1 s hrow, ih h.2]
      · simp [Level.push]
      · exact hrow

theorem ReadsPart.of_pieces (h : ∀ u ∈ t.pieces, ReadsOperand xs u)
    (hassemble : assemble (t.pieces.map Ty.withUnit) = t.withUnit) : ReadsPart xs t :=
  fun elems params outer => ⟨_, hassemble, by rw [Ty.renderPart_eq, read_operands h rfl]; rfl⟩

/-- A type that is not a function is written alone as it is in a function type. -/
theorem ReadsPart.type (h : ReadsPart xs t) (hfn : t.isFn = false) : ReadsType xs t := by
  intro elems outer hlast
  obtain ⟨pieces, hassemble, hread⟩ := h elems [] outer
  refine ⟨{ elems, pieces }, ?_, ?_⟩
  · rw [← hread, Ty.renderPart, hfn]
    rfl
  · simp only [Level.types, hassemble]
    exact joinType_eq_append fun u hu hends => by rw [Ty.bareName?_withUnit, hlast u hu hends]

/-- Read a parameter and the word after it. -/
theorem ReadsPart.read_dash (h : ReadsPart xs t) {dash : String} (hdash : dash = "-" ∨ dash = "->")
    (k : String) (elems params : List Ty) (outer : List Level) :
    read xs ⟨{ elems, params }, outer⟩ (t.renderPart (.canonical xs) ++ (" " ++ dash ++ " ") ++ k) =
      read xs ⟨{ elems, params := params ++ [t.withUnit] }, outer⟩ k := by
  have hword : IsWord dash := isWord_keyword (by rcases hdash with rfl | rfl <;> decide)
  obtain ⟨pieces, hassemble, hread⟩ := h elems params outer
  rw [← String.append_assoc, ← String.append_assoc, read_blank, read_blank, hread, read_word hword]
  simp [Level.word, hdash, hassemble]

theorem read_params (hts : ∀ t ∈ ts, ReadsPart xs t) (hne : ts ≠ []) (k : String)
    (elems params : List Ty) (outer : List Level) :
    read xs ⟨{ elems, params }, outer⟩
      (" - ".intercalate (ts.map (Ty.renderPart (.canonical xs))) ++ " -> " ++ k) =
      read xs ⟨{ elems, params := params ++ ts.map Ty.withUnit }, outer⟩ k := by
  induction ts generalizing params with
  | nil => exact absurd rfl hne
  | cons t ts ih =>
    rw [forall_mem_cons] at hts
    rcases ts with _ | ⟨u, us⟩
    · rw [map_singleton, String.intercalate_singleton]
      exact hts.1.read_dash (.inr rfl) k elems params outer
    · have hassoc (a b c : String) : a ++ " - " ++ b ++ c ++ k = a ++ " - " ++ (b ++ c ++ k) := by
        simp only [String.append_assoc]
      rw [map_cons, String.intercalate_cons_of_ne_nil (by simp), hassoc]
      refine (hts.1.read_dash (.inl rfl) _ elems params outer).trans ?_
      rw [ih hts.2 (by simp), map_cons (l := u :: us), append_assoc]
      rfl

/-- Read the members of a list. -/
theorem read_elems (h : ∀ t ∈ ts, ReadsType xs t)
    (hapart : ts.IsChain fun t u => t.endsInLabel → u.bareName? = none) (hne : ts ≠ [])
    (elems : List Ty)
    (hlast : ∀ u ∈ elems.getLast?, u.endsInLabel → ∀ t ∈ ts.head?, t.bareName? = none)
      (outer : List Level) :
    ∃ l : Level, read xs ⟨{ elems }, outer⟩
      (", ".intercalate (ts.map (Ty.render (.canonical xs)))) =
      ⟨l, outer⟩ ∧ l.types xs = elems ++ ts.map Ty.withUnit := by
  induction ts generalizing elems with
  | nil => exact absurd rfl hne
  | cons t ts ih =>
    rw [forall_mem_cons] at h
    obtain ⟨l, hread, htypes⟩ := h.1 elems outer fun u hu hends => hlast u hu hends t rfl
    rcases ts with _ | ⟨u, us⟩
    · exact ⟨l, by simpa using hread, htypes⟩
    · rw [isChain_cons_cons] at hapart
      obtain ⟨l', hread', htypes'⟩ := ih h.2 hapart.2 (by simp) (elems ++ [t.withUnit]) (by
        simpa [Ty.endsInLabel_withUnit] using hapart.1)
      refine ⟨l', ?_, by rw [htypes']; simp⟩
      rw [map_cons, String.intercalate_cons_of_ne_nil (by simp), read_comma, hread, mark,
        htypes, hread']

theorem ReadsType.operand (h : ReadsType xs t) (hatomic : t.isAtomic = false) :
    ReadsOperand xs t := by
  intro s hrow
  obtain ⟨l, hread, htypes⟩ := h [] (s.level :: s.outer) nofun
  rw [Ty.renderOperand, hatomic, Bool.not_false, parenthesizeIf, if_pos rfl, read_parentheses,
    hread, mark, htypes]
  rfl

theorem readsOperand_tuple (hlen : 2 ≤ ts.length) (h : ∀ t ∈ ts, ReadsType xs t)
    (hapart : ts.IsChain fun t u => t.endsInLabel → u.bareName? = none) :
    ReadsOperand xs (.tuple ts) := by
  intro s hrow
  rcases ts with _ | ⟨t, _ | ⟨u, us⟩⟩
  · cases hlen
  · exact absurd hlen (by simp)
  · obtain ⟨l, hread, htypes⟩ := read_elems h hapart (by simp) [] nofun (s.level :: s.outer)
    have htext : Ty.renderOperand (.canonical xs) (.tuple (t :: u :: us)) =
        "(" ++ ", ".intercalate ((t :: u :: us).map (Ty.render (.canonical xs))) ++ ")" := by
      simp [Ty.renderOperand, Ty.isAtomic, parenthesizeIf, Ty.render, Ty.renderAll_eq_map]
    rw [htext, read_parentheses, hread, mark, htypes, Ty.withUnit, Ty.withUnitAll_eq_map]
    rfl

theorem ReadsOperand.of_word {w : String} (hw : IsWord w)
    (htext : t.renderOperand (.canonical xs) = w)
    (hread : ∀ l : Level, l.row = none → l.word xs w = l.push t.withUnit) : ReadsOperand xs t := by
  intro s hrow
  rw [htext, read_word hw, hread s.level hrow]

/-- Types that are written as one operand. -/
theorem ReadsOperand.reads (h : ReadsOperand xs t) (hpieces : t.pieces = [t])
    (hfn : t.isFn = false) :
    Reads xs t := by
  have hpart : ReadsPart xs t := .of_pieces (by simpa [hpieces] using h) (by rw [hpieces]; rfl)
  exact ⟨h, hpart, hpart.type hfn⟩

theorem reads_prim (p : Prim) : Reads xs (.prim p) := by
  have hp := isWord_of_isName p.isName_name
  refine ReadsOperand.reads (.of_word hp.1 rfl fun l hl => ?_) rfl rfl
  rw [Level.word_of_notMem_keywords hp.2, Level.name, hl, varNamed?_of_isName p.isName_name]
  cases p <;> rfl

theorem readsType_fn {effects : Row} (hts : ∀ t ∈ ts, ReadsPart xs t) (ht : ReadsPart xs t)
    (hlabels : ∀ label ∈ effects.labels, isName label)
    (htail : ∀ e, effects.tail = some e → .effect e ∈ xs) :
    ReadsType xs (.fn ts t effects) := by
  intro elems outer _
  have hparams := Ty.forall_writtenParams (reads_prim .unit).part hts
  have hne : Ty.writtenParams ts ≠ [] := by cases ts <;> simp [Ty.writtenParams]
  obtain ⟨pieces, hassemble, hread⟩ := ht elems ((Ty.writtenParams ts).map Ty.withUnit) outer
  rw [Ty.render_fn, read_params hparams hne, nil_append, read_blank, hread,
    Ty.withUnit_fn, ← hassemble]
  exact read_row hlabels htail _ outer

end Parts

theorem reads_of_plain {t : Ty} (ht : t.Plain) (hxs : ∀ x ∈ t.occurrences, x ∈ xs) :
    Reads xs t := by
  have hall {ts : List Ty} (ih : ∀ t ∈ ts, (∀ x ∈ t.occurrences, x ∈ xs) → Reads xs t)
      (hxs : ∀ x ∈ Ty.occurrencesAll ts, x ∈ xs) : ∀ t ∈ ts, Reads xs t :=
    fun t ht => ih t ht fun x hx => hxs x (Ty.mem_occurrencesAll.mpr ⟨t, ht, hx⟩)
  induction ht with
  | prim p => exact reads_prim p
  | var v =>
    have hv : .type v ∈ xs := hxs _ (.head _)
    have hword := VarNames.isWord_nameOf hv
    refine ReadsOperand.reads (.of_word hword.1 rfl fun l hl => ?_) rfl rfl
    rw [Level.word_of_notMem_keywords hword.2.1, Level.name, hl, varNamed?_nameOf hv]
    rfl
  | @named name args hname hnew _ ih =>
    have hhead : ReadsOperand xs (.named name []) := by
      refine .of_word (isWord_of_isName hname).1 (Ty.renderOperand_named_nil ..) fun l hl => ?_
      rw [Level.word_of_notMem_keywords (isWord_of_isName hname).2, Level.name, hl,
        varNamed?_of_isName hname, hnew]
      rfl
    have hpart : ReadsPart xs (.named name args) := by
      refine .of_pieces (forall_mem_cons.mpr ⟨hhead, fun t ht => (hall ih hxs t ht).operand⟩) ?_
      rw [Ty.pieces, map_cons, Ty.withUnit, Ty.withUnit, Ty.withUnitAll, Ty.withUnitAll_eq_map]
      cases args <;> rfl
    have htype := hpart.type rfl
    rcases args with _ | ⟨a, as⟩
    · exact ⟨hhead, hpart, htype⟩
    · exact ⟨htype.operand rfl, hpart, htype⟩
  | @app head args _ hnew hne _ ihHead ihArgs =>
    rw [Ty.occurrences, forall_mem_append] at hxs
    have hpart : ReadsPart xs (.app head args) := by
      refine .of_pieces (forall_mem_cons.mpr
        ⟨(ihHead hxs.1).operand, fun t ht => (hall ihArgs hxs.2 t ht).operand⟩) ?_
      obtain ⟨a, as, rfl⟩ := exists_cons_of_ne_nil hne
      rw [Ty.pieces, map_cons, Ty.withUnit, Ty.withUnitAll_eq_map]
      cases head <;> first | rfl | simp [Ty.IsHead, Ty.applyTo] at hnew
    exact ⟨(hpart.type rfl).operand rfl, hpart, hpart.type rfl⟩
  | fn _ _ hlabels ihParams ihResult =>
    rw [Ty.occurrences, forall_mem_append, forall_mem_append] at hxs
    have htype := readsType_fn (fun t ht => (hall ihParams hxs.1.1 t ht).part)
      (ihResult hxs.1.2).part hlabels fun e he => hxs.2 _ (by simp [he])
    have hoperand := htype.operand rfl
    exact ⟨hoperand, .of_pieces (by simpa [Ty.pieces] using hoperand) rfl, htype⟩
  | tuple hlen hapart _ ih =>
    exact (readsOperand_tuple hlen (fun t ht => (hall ih hxs t ht).type) hapart).reads rfl rfl

end Reader

namespace Ty

theorem render_withUnit (names : VarNames) (t : Ty) : t.withUnit.render names = t.render names := by
  have hatomic (t : Ty) : t.withUnit.isAtomic = t.isAtomic := by
    cases t <;> simp [withUnit, isAtomic, withUnitAll_eq_map]
  have hfn (t : Ty) : t.withUnit.isFn = t.isFn := by cases t <;> rfl
  have hall {ts : List Ty} (ih : ∀ t ∈ ts, t.withUnit.render names = t.render names)
    (wrap : Ty → Bool)
      (hwrap : ∀ t, wrap t.withUnit = wrap t) :
        renderAll names wrap (withUnitAll ts) = renderAll names wrap ts := by
    rw [renderAll_eq_map, renderAll_eq_map, withUnitAll_eq_map, map_map]
    exact map_congr_left fun t ht => by simp only [Function.comp, hwrap, ih t ht]
  induction t with
  | prim | var => rfl
  | named name args ih => rw [withUnit, render, render, hall ih _ fun t => by rw [hatomic]]
  | app head args ihHead ih =>
    rw [withUnit, render, render, hatomic, ihHead, hall ih _ fun t => by rw [hatomic]]
  | fn params result effects ihParams ihResult =>
    have hparams := hall ihParams isFn hfn
    rw [withUnit, render, render, hfn, ihResult, ← hparams, withUnitAll_eq_map]
    cases params <;> rfl
  | tuple elems ih => rw [withUnit, render, render, hall ih _ fun _ => rfl]

/-- Two types in normal form have the same text if and only if they are equal up to `Unit`
parameters. -/
theorem renderPair_eq_iff {a b : Ty} (ha : a.Plain) (hb : b.Plain) :
    (renderPair a b).1 = (renderPair a b).2 ↔ a.withUnit = b.withUnit := by
  refine ⟨fun h => ?_, fun h => ?_⟩
  · have hreads := Reader.reads_of_plain ha fun _ => mem_append_left b.occurrences
    have hreads' := Reader.reads_of_plain hb fun _ => mem_append_right a.occurrences
    obtain ⟨l, hread, htypes⟩ := hreads.type [] [] nofun
    obtain ⟨l', hread', htypes'⟩ := hreads'.type [] [] nofun
    have hl : l = l' := congrArg Reader.level (hread.symm.trans ((congrArg _ h).trans hread'))
    have hlist : [a.withUnit] = [b.withUnit] := htypes.symm.trans (hl ▸ htypes')
    exact singleton_inj.mp hlist
  · simp only [renderPair]
    rw [← render_withUnit, h, render_withUnit]

/-- A variable in the place of another one is seen, also after a row with labels. -/
theorem renderPair_eq_iff_variable :
    let f : Ty := .fn [] (.var ⟨0⟩) { labels := ["IO"] }
    (renderPair (.tuple [f, .var ⟨0⟩]) (.tuple [f, .var ⟨1⟩])).1 ≠
      (renderPair (.tuple [f, .var ⟨0⟩]) (.tuple [f, .var ⟨1⟩])).2 := by
  intro f
  have hplain (v : TypeVar) : Plain (.tuple [f, .var v]) := by
    refine .tuple (by simp) (by simp [bareName?]) ?_
    simp only [mem_cons, not_mem_nil, or_false, forall_eq_or_imp, forall_eq]
    exact ⟨.fn nofun (.var _) (by decide), .var v⟩
  exact mt (renderPair_eq_iff (hplain ⟨0⟩) (hplain ⟨1⟩)).mp (by simp [withUnit, withUnitAll])

/-- A function without parameters has the text of one with a `Unit` parameter, and a tuple may have
the text of one in which a bare name is a label. -/
theorem renderPair_collisions :
    (∃ a b : Ty, a.Plain ∧ b.Plain ∧ a ≠ b ∧ (renderPair a b).1 = (renderPair a b).2) ∧
      let f (labels : List String) : Ty := .fn [.int] .int { labels }
      let p := renderPair (.tuple [f ["A"], .named "B" [], .named "C" []])
        (.tuple [f ["A", "B"], .named "C" []])
      p.1 = p.2 := by
  refine ⟨⟨.fn [] .int .pure, .fn [.unit] .int .pure, ?_, ?_, nofun, by decide⟩, by decide⟩
  · exact .fn nofun (.prim .int) nofun
  · exact .fn (forall_mem_singleton.mpr (.prim .unit)) (.prim .int) nofun

end Ty

end RowTyping
