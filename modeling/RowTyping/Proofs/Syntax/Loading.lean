import RowTyping.Syntax.Encode
import RowTyping.Syntax.Load

/-!
# Loading what was written

Reading the JSON value of a syntax tree gives the tree back if the nesting budget suffices
(`Module.ofJson?_toJson`), and so does loading a text with that value (`Module.load_written`). Every
type of tree has its lemma, built from those of its parts: records are read field by field
(`Json.record?_object`), and an alternative is found by its name.
-/

namespace RowTyping

open List

/-! ## Nesting -/

namespace Json

variable {b : Nat} {members : List (String × Json)}

theorem nestingOfItems_le {items : List Json} :
    nestingOfItems items ≤ b ↔ ∀ j ∈ items, j.nesting ≤ b := by
  induction items with
  | nil => simp [nestingOfItems]
  | cons j items ih => simp only [nestingOfItems, Nat.max_le, ih, forall_mem_cons]

theorem nestingOfMembers_le : nestingOfMembers members ≤ b ↔ ∀ m ∈ members, m.2.nesting ≤ b := by
  induction members with
  | nil => simp [nestingOfMembers]
  | cons m members ih => simp only [nestingOfMembers, Nat.max_le, ih, forall_mem_cons]

/-- Entering an array spends a level. -/
theorem nesting_array_le {items : List Json} :
    (array items).nesting ≤ b ↔ ∃ c, b = c + 1 ∧ ∀ j ∈ items, j.nesting ≤ c := by
  rw [nesting]
  constructor
  · intro h
    exact ⟨b - 1, by omega, nestingOfItems_le.mp (by omega)⟩
  · rintro ⟨c, rfl, h⟩
    exact Nat.succ_le_succ (nestingOfItems_le.mpr h)

/-- Entering an object spends a level. -/
theorem nesting_object_le :
    (object members).nesting ≤ b ↔ ∃ c, b = c + 1 ∧ ∀ m ∈ members, m.2.nesting ≤ c := by
  rw [nesting]
  constructor
  · intro h
    exact ⟨b - 1, by omega, nestingOfMembers_le.mp (by omega)⟩
  · rintro ⟨c, rfl, h⟩
    exact Nat.succ_le_succ (nestingOfMembers_le.mpr h)

theorem nesting_ofVariant_le {name : String} {content : Json} :
    (ofVariant name content).nesting ≤ b ↔ ∃ c, b = c + 1 ∧ content.nesting ≤ c := by
  simp [ofVariant, nesting_object_le]

/-! ## Records and lists -/

theorem valuesOf_eq_nil {key : String} (h : key ∉ members.map (·.1)) :
    valuesOf key members = [] := by
  rw [valuesOf, map_eq_nil_iff, filter_eq_nil_iff]
  intro m hm hkey
  exact h (of_decide_eq_true hkey ▸ mem_map_of_mem hm)

theorem valuesOf_of_nodup (h : (members.map (·.1)).Nodup) {i : Nat} {m : String × Json}
    (hi : members[i]? = some m) :
    valuesOf m.1 members = [m.2] := by
  induction members generalizing i with
  | nil => cases hi
  | cons m' members ih =>
    rw [map_cons, nodup_cons] at h
    cases i with
    | zero =>
      cases hi
      have hrest := valuesOf_eq_nil h.1
      rw [valuesOf] at hrest ⊢
      rw [filter_cons_of_pos (by simp), map_cons, hrest]
    | succ i =>
      have hne : m'.1 ≠ m.1 := fun heq => h.1 (heq ▸ mem_map_of_mem (mem_of_getElem? hi))
      have hrest := ih h.2 hi
      rw [valuesOf] at hrest ⊢
      rw [filter_cons_of_neg (by simpa using hne), hrest]

/-- A record that is written with all its fields is read with all its fields. -/
theorem record?_object {fields : List String} (hkeys : members.map (·.1) = fields)
    (hfields : fields.Nodup) :
    record? fields (.object members) = some ⟨false, fun i => (members[i]?).map (·.2)⟩ := by
  subst hkeys
  have hvalue {i : Nat} {m : String × Json} (hi : members[i]? = some m) :=
    valuesOf_of_nodup hfields hi
  have hall : ((members.map (·.1)).all fun key => (valuesOf key members).length ≤ 1) = true := by
    refine all_eq_true.mpr fun key hkey => ?_
    obtain ⟨m, hm, rfl⟩ := mem_map.mp hkey
    obtain ⟨i, hi⟩ := mem_iff_getElem?.mp hm
    rw [hvalue hi]
    rfl
  rw [record?, if_pos hall]
  congr 2
  funext i
  rw [getElem?_map]
  rcases hi : members[i]? with _ | m
  · rfl
  · simp [hvalue hi]

theorem mapM_map {α : Type} {write : α → Json} {read : Json → Option α} {as : List α}
    (h : ∀ a ∈ as, read (write a) = some a) : (as.map write).mapM read = some as := by
  induction as with
  | nil => rfl
  | cons a as ih =>
    rw [forall_mem_cons] at h
    simp [h.1, ih h.2]

theorem mapM_cons {α : Type} {read : Nat → Json → Option α} {j : Json} {items : List Json} {a : α}
    {as : List α} (ha : ∀ {c}, j.nesting ≤ c → read c j = some a)
    (has : (array items).nesting ≤ b + 1 → items.mapM (read b) = some as)
    (h : (array (j :: items)).nesting ≤ b + 1) : (j :: items).mapM (read b) = some (a :: as) := by
  simp only [nesting_array_le, Nat.add_right_cancel_iff, exists_eq_left', forall_mem_cons] at h has
  simp [ha h.1, has h.2]

end Json

namespace Decode

theorem uint32_int (n : UInt32) : uint32 (.int n.toNat) = some n := by
  change (if n.toNat < UInt32.size then some n.toNat.toUInt32 else none) = some n
  rw [if_pos n.toNat_lt]
  simp

theorem int64_int (n : Int64) : int64 (.int n.toInt) = some n := by
  rw [int64, if_pos ⟨n.minValue_le_toInt, n.toInt_le⟩]
  simp

theorem list_ofList {α : Type} {read : Nat → Json → Option α} {write : α → Json} {as : List α}
    (hread : ∀ a ∈ as, ∀ {b}, (write a).nesting ≤ b → read b (write a) = some a) {b : Nat}
    (h : (Json.ofList write as).nesting ≤ b) : list read b (Json.ofList write as) = some as := by
  obtain ⟨b, rfl, hitems⟩ := Json.nesting_array_le.mp h
  exact Json.mapM_map fun a ha => hread a ha (hitems _ (mem_map_of_mem ha))

theorem list_text {names : List String} {b : Nat} (h : (Json.ofList .string names).nesting ≤ b) :
    list text b (Json.ofList .string names) = some names :=
  list_ofList (fun name _ b _ => show text b (.string name) = some name from rfl) h

end Decode

theorem JsonRecord.nullable_ofOption {α : Type} {read : Json → Option α} {write : α → Json}
    {o : Option α} (hnull : ∀ a, write a ≠ .null) (hread : ∀ a ∈ o, read (write a) = some a) :
    nullable read (Json.ofOption write o) = some o := by
  rcases o with _ | a
  · rfl
  · have hread := hread a rfl
    rw [Json.ofOption]
    rcases hwrite : write a with _ | _ | _ | _ | _ | _ | _ | _
    · exact absurd hwrite (hnull a)
    all_goals
      rw [hwrite] at hread
      simp [nullable, hread]

attribute [simp] Json.variant? Json.string? Json.record?_object JsonRecord.required
  JsonRecord.withDefault JsonRecord.optional Json.ofVariant Decode.list_text

variable {b : Nat} {span : Span}

/-! ## Spans -/

@[simp]
theorem Span.ofJson?_toJson (s : Span) (h : s.toJson.nesting ≤ b) :
    Span.ofJson? b s.toJson = some s := by
  obtain ⟨b, rfl, -⟩ := Json.nesting_object_le.mp h
  simp [Span.ofJson?, Span.toJson, Decode.uint32_int]

theorem Span.nesting_wrap_le {node : Json} :
    (span.wrap node).nesting ≤ b ↔ ∃ c, b = c + 1 ∧ node.nesting ≤ c ∧ span.toJson.nesting ≤ c := by
  simp [Span.wrap, Json.nesting_object_le]

theorem Spanned.ofJson?_toJson {α : Type} {read : Nat → Json → Option α} {write : α → Json}
    (s : Spanned α)
    (hread : ∀ {b}, (write s.node).nesting ≤ b → read b (write s.node) = some s.node)
    (h : (s.toJson write).nesting ≤ b) : Spanned.ofJson? read b (s.toJson write) = some s := by
  obtain ⟨b, rfl, hnode, hspan⟩ := Span.nesting_wrap_le.mp h
  simp [Spanned.ofJson?, Spanned.toJson, Span.wrap, hread hnode, hspan]

@[simp]
theorem Spanned.nameOfJson?_nameToJson (name : Spanned String) (h : name.nameToJson.nesting ≤ b) :
    Spanned.nameOfJson? b name.nameToJson = some name :=
  name.ofJson?_toJson (fun _ => rfl) h

/-! ## Literals and types -/

@[simp]
theorem Literal.ofJson?_toJson (l : Literal) (h : l.toJson.nesting ≤ b) :
    Literal.ofJson? b l.toJson = some l := by
  cases l with
  | unit => simp [Literal.toJson, Literal.ofJson?]
  | int | float | bool | string =>
    obtain ⟨b, rfl, -⟩ := Json.nesting_ofVariant_le.mp h
    simp [Literal.toJson, Literal.ofJson?, Decode.int64_int, Decode.float, Decode.bool]

@[simp]
theorem EffectExpr.ofJson?_toJson (e : EffectExpr) (h : e.toJson.nesting ≤ b) :
    EffectExpr.ofJson? b e.toJson = some e := by
  cases e with
  | pure => simp [EffectExpr.toJson, EffectExpr.ofJson?]
  | var name =>
    obtain ⟨b, rfl, -⟩ := Json.nesting_ofVariant_le.mp h
    simp [EffectExpr.toJson, EffectExpr.ofJson?]
  | row effects rest =>
    obtain ⟨b, rfl, hcontent⟩ := Json.nesting_ofVariant_le.mp h
    obtain ⟨b, rfl, hfields⟩ := Json.nesting_object_le.mp hcontent
    have hrest : JsonRecord.nullable Json.string? (Json.ofOption .string rest) = some rest :=
      JsonRecord.nullable_ofOption (by simp) (by simp)
    simp_all [EffectExpr.toJson, EffectExpr.ofJson?, EffectExpr.ofJson?.rowOfJson?]

mutual

theorem TypeExpr.ofJson?_toJson (t : TypeExpr) {b : Nat} (h : t.toJson.nesting ≤ b) :
    TypeExpr.ofJson? b t.toJson = some t := by
  rcases t with name | ⟨name, args⟩ | ⟨params, result, effect⟩ | elems
  all_goals
    rw [TypeExpr.toJson] at h ⊢
    obtain ⟨b, rfl, hcontent⟩ := Json.nesting_ofVariant_le.mp h
  · simp [TypeExpr.ofJson?]
  · obtain ⟨b, rfl, hitems⟩ := Json.nesting_array_le.mp hcontent
    simp_all [TypeExpr.ofJson?, TypeExpr.appliedOfJson?, TypeExpr.listOfJson?_toJsonAll args]
  · obtain ⟨b, rfl, hfields⟩ := Json.nesting_object_le.mp hcontent
    simp_all [TypeExpr.ofJson?, TypeExpr.functionOfJson?, TypeExpr.listOfJson?_toJsonAll params,
      TypeExpr.ofJson?_toJson result]
  · simp [TypeExpr.ofJson?, TypeExpr.listOfJson?_toJsonAll elems hcontent]

theorem TypeExpr.listOfJson?_toJsonAll (ts : List TypeExpr) {b : Nat}
    (h : (Json.array (TypeExpr.toJsonAll ts)).nesting ≤ b) :
    TypeExpr.listOfJson? b (.array (TypeExpr.toJsonAll ts)) = some ts := by
  obtain ⟨b, rfl, -⟩ := Json.nesting_array_le.mp h
  cases ts with
  | nil => rfl
  | cons t ts =>
    exact Json.mapM_cons (TypeExpr.ofJson?_toJson t) (TypeExpr.listOfJson?_toJsonAll ts) h

end

attribute [simp] TypeExpr.ofJson?_toJson

@[simp]
theorem TypeExpr.listOfJson?_ofList (ts : List TypeExpr)
    (h : (Json.ofList TypeExpr.toJson ts).nesting ≤ b) :
    TypeExpr.listOfJson? b (Json.ofList TypeExpr.toJson ts) = some ts := by
  obtain ⟨b, rfl, hitems⟩ := Json.nesting_array_le.mp h
  exact Json.mapM_map fun t ht => t.ofJson?_toJson (hitems _ (mem_map_of_mem ht))

@[simp]
theorem TypeExpr.spannedOfJson?_toJson (t : Spanned TypeExpr)
    (h : (t.toJson TypeExpr.toJson).nesting ≤ b) :
    TypeExpr.spannedOfJson? b (t.toJson TypeExpr.toJson) = some t :=
  t.ofJson?_toJson t.node.ofJson?_toJson h

/-- A type that may be missing. -/
@[simp]
theorem TypeExpr.nullable_spannedOfJson? (t : Option (Spanned TypeExpr))
    (h : (Json.ofOption (Spanned.toJson TypeExpr.toJson) t).nesting ≤ b) :
    JsonRecord.nullable (TypeExpr.spannedOfJson? b)
      (Json.ofOption (Spanned.toJson TypeExpr.toJson) t) = some t := by
  refine JsonRecord.nullable_ofOption (fun a => by simp [Spanned.toJson, Span.wrap]) fun a ha => ?_
  cases ha
  exact TypeExpr.spannedOfJson?_toJson a h

/-! ## Patterns -/

mutual

theorem Pattern.ofJson?_toJson (p : Pattern) {b : Nat} (h : p.toJson.nesting ≤ b) :
    Pattern.ofJson? b p.toJson = some p := by
  rcases p with span | ⟨span, name⟩ | ⟨span, value⟩ | ⟨span, name, args⟩ | ⟨span, elems⟩
  all_goals
    rw [Pattern.toJson] at h ⊢
    obtain ⟨b, rfl, hnode, hspan⟩ := Span.nesting_wrap_le.mp h
    rw [Pattern.ofJson?]
  · simp [Span.wrap, hspan, Pattern.nodeOfJson?]
  all_goals obtain ⟨b, rfl, hcontent⟩ := Json.nesting_ofVariant_le.mp hnode
  · simp [Span.wrap, hspan, Pattern.nodeOfJson?]
  · simp [Span.wrap, hspan, Pattern.nodeOfJson?, hcontent]
  · obtain ⟨b, rfl, hfields⟩ := Json.nesting_object_le.mp hcontent
    simp_all [Span.wrap, Pattern.nodeOfJson?, Pattern.constructorOfJson?,
      Pattern.listOfJson?_toJsonAll args]
  · simp [Span.wrap, hspan, Pattern.nodeOfJson?, Pattern.listOfJson?_toJsonAll elems hcontent]

theorem Pattern.listOfJson?_toJsonAll (ps : List Pattern) {b : Nat}
    (h : (Json.array (Pattern.toJsonAll ps)).nesting ≤ b) :
    Pattern.listOfJson? b (.array (Pattern.toJsonAll ps)) = some ps := by
  obtain ⟨b, rfl, -⟩ := Json.nesting_array_le.mp h
  cases ps with
  | nil => rfl
  | cons p ps =>
    exact Json.mapM_cons (Pattern.ofJson?_toJson p) (Pattern.listOfJson?_toJsonAll ps) h

end

attribute [simp] Pattern.ofJson?_toJson

@[simp]
theorem Pattern.listOfJson?_ofList (ps : List Pattern)
    (h : (Json.ofList Pattern.toJson ps).nesting ≤ b) :
    Pattern.listOfJson? b (Json.ofList Pattern.toJson ps) = some ps := by
  obtain ⟨b, rfl, hitems⟩ := Json.nesting_array_le.mp h
  exact Json.mapM_map fun p hp => p.ofJson?_toJson (hitems _ (mem_map_of_mem hp))

/-! ## Expressions -/

/-- An expression that is written with one content. -/
theorem Expr.ofJson?_variant {name : String} {content : Json} {e : Expr}
    (h : (span.wrap (Json.ofVariant name content)).nesting ≤ b)
    (hnode : ∀ {c}, content.nesting ≤ c →
      Expr.nodeOfJson? (c + 1) span (Json.ofVariant name content) = some e) :
    Expr.ofJson? b (span.wrap (Json.ofVariant name content)) = some e := by
  obtain ⟨b, rfl, hvariant, hspan⟩ := Span.nesting_wrap_le.mp h
  obtain ⟨b, rfl, hcontent⟩ := Json.nesting_ofVariant_le.mp hvariant
  have hnode := hnode hcontent
  simp_all [Expr.ofJson?, Span.wrap]

/-- An expression that is written with several fields. -/
theorem Expr.ofJson?_record {name : String} {members : List (String × Json)} {e : Expr}
    (h : (span.wrap (Json.ofVariant name (.object members))).nesting ≤ b)
    (hnode : ∀ {c}, (∀ m ∈ members, m.2.nesting ≤ c) →
      Expr.nodeOfJson? (c + 2) span (Json.ofVariant name (.object members)) = some e) :
    Expr.ofJson? b (span.wrap (Json.ofVariant name (.object members))) = some e := by
  refine Expr.ofJson?_variant h fun hcontent => ?_
  obtain ⟨c, rfl, hfields⟩ := Json.nesting_object_le.mp hcontent
  exact hnode hfields

mutual

theorem Expr.ofJson?_toJson (e : Expr) {b : Nat} (h : e.toJson.nesting ≤ b) :
    Expr.ofJson? b e.toJson = some e := by
  cases e with
  | lit | var =>
    rw [Expr.toJson] at h ⊢
    exact Expr.ofJson?_variant h fun hcontent => by simp [Expr.nodeOfJson?, hcontent]
  | lambda span params body =>
    rw [Expr.toJson] at h ⊢
    refine Expr.ofJson?_record h fun hfields => ?_
    simp_all [Expr.nodeOfJson?, Expr.lambdaOfJson?, Expr.ofJson?_toJson body]
  | call span callee args =>
    rw [Expr.toJson] at h ⊢
    refine Expr.ofJson?_record h fun hfields => ?_
    simp_all [Expr.nodeOfJson?, Expr.callOfJson?, Expr.ofJson?_toJson callee,
      Expr.listOfJson?_toJsonAll args]
  | letIn span pattern stated value body =>
    rw [Expr.toJson] at h ⊢
    refine Expr.ofJson?_record h fun hfields => ?_
    simp_all [Expr.nodeOfJson?, Expr.letOfJson?, Expr.ofJson?_toJson value,
      Expr.ofJson?_toJson body]
  | cond span condition onTrue onFalse =>
    rw [Expr.toJson] at h ⊢
    refine Expr.ofJson?_record h fun hfields => ?_
    simp_all [Expr.nodeOfJson?, Expr.condOfJson?, Expr.ofJson?_toJson condition,
      Expr.ofJson?_toJson onTrue,
      Expr.ofJson?_toJson onFalse]
  | cases span scrutinee arms =>
    rw [Expr.toJson] at h ⊢
    refine Expr.ofJson?_record h fun hfields => ?_
    simp_all [Expr.nodeOfJson?, Expr.casesOfJson?, Expr.ofJson?_toJson scrutinee,
      Expr.armsOfJson?_toJsonArms arms]
  | ascribe span expr stated =>
    rw [Expr.toJson] at h ⊢
    refine Expr.ofJson?_record h fun hfields => ?_
    simp_all [Expr.nodeOfJson?, Expr.ascribeOfJson?, Expr.ofJson?_toJson expr]
  | tuple span elems =>
    rw [Expr.toJson] at h ⊢
    refine Expr.ofJson?_variant h fun hcontent => ?_
    simp [Expr.nodeOfJson?, Expr.listOfJson?_toJsonAll elems hcontent]

theorem Expr.listOfJson?_toJsonAll (es : List Expr) {b : Nat}
    (h : (Json.array (Expr.toJsonAll es)).nesting ≤ b) :
    Expr.listOfJson? b (.array (Expr.toJsonAll es)) = some es := by
  obtain ⟨b, rfl, -⟩ := Json.nesting_array_le.mp h
  cases es with
  | nil => rfl
  | cons e es => exact Json.mapM_cons (Expr.ofJson?_toJson e) (Expr.listOfJson?_toJsonAll es) h

theorem Expr.armsOfJson?_toJsonArms (arms : List (Pattern × Expr)) {b : Nat}
    (h : (Json.array (Expr.toJsonArms arms)).nesting ≤ b) :
    Expr.armsOfJson? b (.array (Expr.toJsonArms arms)) = some arms := by
  obtain ⟨b, rfl, -⟩ := Json.nesting_array_le.mp h
  cases arms with
  | nil => rfl
  | cons arm arms =>
    obtain ⟨p, e⟩ := arm
    refine Json.mapM_cons (fun harm => ?_) (Expr.armsOfJson?_toJsonArms arms) h
    obtain ⟨b, rfl, hfields⟩ := Json.nesting_object_le.mp harm
    simp_all [Expr.armOfJson?, Expr.ofJson?_toJson e]

end

attribute [simp] Expr.ofJson?_toJson

/-! ## Declarations -/

@[simp]
theorem Bound.ofJson?_toJson (x : Bound) (h : x.toJson.nesting ≤ b) :
    Bound.ofJson? b x.toJson = some x := by
  obtain ⟨b, rfl, hfields⟩ := Json.nesting_object_le.mp h
  simp_all [Bound.ofJson?, Bound.toJson]

@[simp]
theorem Bound.list_ofList {xs : List Bound} (h : (Json.ofList Bound.toJson xs).nesting ≤ b) :
    Decode.list Bound.ofJson? b (Json.ofList Bound.toJson xs) = some xs :=
  Decode.list_ofList (fun x _ => x.ofJson?_toJson) h

@[simp]
theorem Definition.ofJson?_toJson (d : Definition) (h : d.toJson.nesting ≤ b) :
    Definition.ofJson? b d.toJson = some d := by
  obtain ⟨b, rfl, hfields⟩ := Json.nesting_object_le.mp h
  simp_all [Definition.ofJson?, Definition.toJson]

theorem Variant.ofJson?_toJson (v : Variant) (h : v.toJson.nesting ≤ b) :
    Variant.ofJson? b v.toJson = some v := by
  obtain ⟨b, rfl, hfields⟩ := Json.nesting_object_le.mp h
  simp_all [Variant.ofJson?, Variant.toJson]

@[simp]
theorem DataDecl.ofJson?_toJson (d : DataDecl) (h : d.toJson.nesting ≤ b) :
    DataDecl.ofJson? b d.toJson = some d := by
  obtain ⟨b, rfl, hfields⟩ := Json.nesting_object_le.mp h
  simp_all [DataDecl.ofJson?, DataDecl.toJson,
    Decode.list_ofList fun v _ => Variant.ofJson?_toJson v]

theorem MethodDecl.ofJson?_toJson (m : MethodDecl) (h : m.toJson.nesting ≤ b) :
    MethodDecl.ofJson? b m.toJson = some m := by
  obtain ⟨b, rfl, hfields⟩ := Json.nesting_object_le.mp h
  simp_all [MethodDecl.ofJson?, MethodDecl.toJson]

@[simp]
theorem TraitDecl.ofJson?_toJson (d : TraitDecl) (h : d.toJson.nesting ≤ b) :
    TraitDecl.ofJson? b d.toJson = some d := by
  obtain ⟨b, rfl, hfields⟩ := Json.nesting_object_le.mp h
  simp_all [TraitDecl.ofJson?, TraitDecl.toJson,
    Decode.list_ofList fun m _ => MethodDecl.ofJson?_toJson m]

theorem OperationDecl.ofJson?_toJson (o : OperationDecl) (h : o.toJson.nesting ≤ b) :
    OperationDecl.ofJson? b o.toJson = some o := by
  obtain ⟨b, rfl, hfields⟩ := Json.nesting_object_le.mp h
  simp_all [OperationDecl.ofJson?, OperationDecl.toJson]

@[simp]
theorem EffectDecl.ofJson?_toJson (d : EffectDecl) (h : d.toJson.nesting ≤ b) :
    EffectDecl.ofJson? b d.toJson = some d := by
  obtain ⟨b, rfl, hfields⟩ := Json.nesting_object_le.mp h
  simp_all [EffectDecl.ofJson?, EffectDecl.toJson,
    Decode.list_ofList fun o _ => OperationDecl.ofJson?_toJson o]

@[simp]
theorem ImplDecl.ofJson?_toJson (d : ImplDecl) (h : d.toJson.nesting ≤ b) :
    ImplDecl.ofJson? b d.toJson = some d := by
  obtain ⟨b, rfl, hfields⟩ := Json.nesting_object_le.mp h
  simp_all [ImplDecl.ofJson?, ImplDecl.toJson,
    Decode.list_ofList fun m _ => Definition.ofJson?_toJson m]

theorem Declaration.ofJson?_toJson (d : Declaration) (h : d.toJson.nesting ≤ b) :
    Declaration.ofJson? b d.toJson = some d := by
  cases d with
  | definition | data | trait | effect | impl =>
    obtain ⟨b, rfl, hcontent⟩ := Json.nesting_ofVariant_le.mp h
    simp [Declaration.ofJson?, Declaration.toJson, hcontent]

theorem Module.ofJson?_toJson (m : Module) (h : m.toJson.nesting ≤ b) :
    Module.ofJson? b m.toJson = some m := by
  obtain ⟨b, rfl, hfields⟩ := Json.nesting_object_le.mp h
  have hread (d : Spanned Declaration) {b : Nat} (h : (d.toJson Declaration.toJson).nesting ≤ b) :
      Spanned.ofJson? Declaration.ofJson? b (d.toJson Declaration.toJson) = some d :=
    d.ofJson?_toJson d.node.ofJson?_toJson h
  simp_all [Module.ofJson?, Module.toJson, Decode.list_ofList fun d _ => hread d]

/-! ## Texts -/

/-- Loading undoes writing: a module that is not nested too deeply is read back from its JSON value
and from every text with that value, so from the text of every printer that the reader inverts
there. -/
theorem Module.load_written {m : Module} (hnesting : m.toJson.nesting ≤ Module.maxNesting) :
    Module.ofJson? Module.maxNesting m.toJson = some m ∧
      ∀ text, Json.parse? text = some m.toJson → Module.load? text = some m := by
  have hvalue := m.ofJson?_toJson hnesting
  refine ⟨hvalue, fun text htext => ?_⟩
  rw [Module.load?, htext, Option.bind_some, hvalue]

/-- Declarations of every form. Names need escapes, and spans reach the largest offset. -/
private def allForms : Module :=
  let name (s : String) : Spanned String := ⟨s, ⟨1, 2, 3⟩⟩
  let here : Span := ⟨7, 0, 4294967295⟩
  let arrow : TypeExpr :=
    .function [.named "a", .tuple [.named "Int", .applied "Maybe" [.named "a"]]] (.named "b")
      (.row ["IO", "State"] (some "e"))
  { declarations := [
      ⟨.data ⟨name "T\"\\", ["a"], [⟨name "Leaf", []⟩, ⟨name "Node\n\x01", [.named "a", arrow]⟩]⟩,
        here⟩,
      ⟨.trait ⟨name "Show", name "a",
        [⟨name "show", ⟨arrow, here⟩, [⟨name "Eq", name "b"⟩], here⟩]⟩, here⟩,
      ⟨.effect
        ⟨name "IO", [⟨name "print", [.named "String"], .function [] (.named "Unit") .pure, here⟩]⟩,
          here⟩,
      ⟨.definition
        { name := name "λ", params := [.tuple here [.wildcard here, .var here "x"]],
          declared := some ⟨arrow, here⟩, given := [⟨name "Show", name "a"⟩], span := here
          body :=
            .letIn here (.constructor here "Leaf" [])
              (some ⟨.function [] (.named "c") (.var "e"), here⟩)
              (.call here (.lambda here [.lit here .unit] (.lit here (.float 1.5)))
                [.tuple here [.lit here (.int (-7)), .lit here (.string "\t ")]])
              (.cond here (.ascribe here (.lit here (.bool true)) ⟨.named "Bool", here⟩)
                (.var here "x") (.cases here (.var here "x")
                  [(.lit here (.int 0), .var here ""), (.wildcard here, .tuple here [])])) },
        here⟩,
      ⟨.impl ⟨name "Show", name "T", [{ name := name "show", body := .var here "λ" }]⟩, here⟩],
    span := here }

theorem Module.load_written_allForms :
    allForms.toJson.nesting ≤ Module.maxNesting ∧
      Module.ofJson? Module.maxNesting allForms.toJson = some allForms ∧
      ∀ text, Json.parse? text = some allForms.toJson → Module.load? text = some allForms := by
  have hnesting : allForms.toJson.nesting ≤ Module.maxNesting := by decide +kernel
  exact ⟨hnesting, Module.load_written hnesting⟩

end RowTyping
