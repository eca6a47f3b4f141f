import RowTyping.Proofs.Check.Declarations
import RowTyping.Proofs.Check.WrittenTypes

/-!
# Data types and their constructors

While the data types of a module are declared, each registered type is what some declaration says,
and the global names are exactly the constructors, each with the type it has as a value
(`Checker.TypesRecorded`). A constructor is bound before its type is registered with it, so this
holds between two declarations but not within one.
-/

namespace RowTyping

open List

/-- In a list whose members differ in a feature each member is the only one with its own. -/
theorem filter_eq_singleton_of_nodup_map {α κ : Type} [DecidableEq κ] {f : α → κ} {l : List α}
    (h : (l.map f).Nodup) {a : α} (ha : a ∈ l) : l.filter (f · = f a) = [a] := by
  have hnodup : (l.filter (f · = f a)).Nodup := (h.of_map f).filter _
  refine perm_singleton.mp ((perm_ext_iff_of_nodup hnodup (nodup_singleton a)).mpr fun b => ?_)
  rw [mem_filter, decide_eq_true_eq, mem_singleton]
  refine ⟨fun ⟨hb, heq⟩ => inj_on_of_nodup_map h hb ha heq, ?_⟩
  rintro rfl
  exact ⟨ha, rfl⟩

/-- The constructor is what the variant says when the names of the parameters stand for them. -/
def Variant.Gives (reg : Registry) (params : List (TypeVar × String)) (v : Variant)
    (con : Constructor) :
    Prop :=
  v.name.node = con.name ∧
    Forall₂ ((TypeScope.closed (params.map Prod.swap)).Reads reg) v.fields con.fields

/-- The fields have what everything has that is read in the scope of the parameters. -/
theorem Variant.Gives.forall_fields {reg : Registry} {params : List (TypeVar × String)}
    {v : Variant} {con : Constructor} (h : v.Gives reg params con) {Q : Ty → Prop}
    (hQ : ∀ {w t}, (TypeScope.closed (params.map Prod.swap)).Reads reg w t → Q t) :
    ∀ t ∈ con.fields, Q t :=
  ((forall₂_and_left (R := fun _ _ => True) _ _).mp
    (h.2.flip.imp fun _ _ hread => ⟨hQ hread, trivial⟩)).1

/-- The data type is what the declaration says, as far as its constructors are in order. -/
structure DataDecl.Gives (reg : Registry) (decl : DataDecl) (d : DataType) : Prop where
  name : d.name = decl.name.node
  params : d.params.map (·.2) = decl.params
  distinct : d.paramVars.Nodup
  constructors : ∀ con ∈ d.constructors, ∃ v ∈ decl.variants, v.Gives reg d.params con

theorem DataDecl.Gives.widens {reg reg' : Registry} {decl : DataDecl} {d : DataType}
    (h : decl.Gives reg d) (hreg : reg.Widens reg') : decl.Gives reg' d where
  __ := h
  constructors con hcon := by
    obtain ⟨v, hv, hname, hfields⟩ := h.constructors con hcon
    exact ⟨v, hv, hname, hfields.imp fun _ _ hread => hread.widens hreg⟩

/-- Every data type is stored under its name and owns its constructors, which have different
names. -/
structure DataTypes.Linked (types : DataTypes) : Prop where
  name : ∀ {n d}, types.get? n = some d → d.name = n
  owner : ∀ {n d con}, types.get? n = some d → con ∈ d.constructors →
    types.owners.get? con.name = some n
  distinct : ∀ {n d}, types.get? n = some d → (d.constructors.map (·.name)).Nodup

namespace DataTypes

variable {types : DataTypes} {con : Constructor} {d : DataType} {name : String}

theorem get?_insert (d : DataType) (n : String) :
    (types.insert d).get? n = if n = d.name then some d else types.get? n :=
  Dict.get?_insert _ _ _ _

/-- A constructor that is found is listed in the type it is found in. -/
theorem constructor?_eq_some (h : types.constructor? name = some (d, con)) :
    ∃ n, types.get? n = some d ∧ con ∈ d.constructors ∧ con.name = name := by
  simp only [constructor?, Option.bind_eq_bind, Option.bind_eq_some_iff, Option.pure_def,
    Option.some.injEq, Prod.mk.injEq] at h
  obtain ⟨n, -, d, hd, con, hfind, rfl, rfl⟩ := h
  exact ⟨n, hd, mem_of_find?_eq_some hfind, by simpa using find?_some hfind⟩

/-- The constructors are new, and their names are different. -/
structure New (types : DataTypes) (cons : List Constructor) : Prop where
  undeclared : ∀ con ∈ cons, types.hasConstructor con.name = false
  distinct : (cons.map (·.name)).Nodup

theorem new_nil (types : DataTypes) : types.New [] := ⟨nofun, nodup_nil⟩

theorem New.append_singleton {cons : List Constructor} (h : types.New cons)
    (hcon : ¬ (types.hasConstructor con.name || cons.any (·.name = con.name)) = true) :
    types.New (cons ++ [con]) := by
  simp only [Bool.or_eq_true, not_or, Bool.not_eq_true, any_eq_false, decide_eq_true_eq] at hcon
  refine ⟨fun con' hcon' => ?_, ?_⟩
  · rcases mem_append.mp hcon' with hold | hnew
    · exact h.undeclared con' hold
    · rw [mem_singleton.mp hnew]
      exact hcon.1
  · rw [map_append, map_singleton]
    refine List.Nodup.append h.distinct (nodup_singleton _) ?_
    rw [disjoint_singleton]
    intro hmem
    obtain ⟨con', hcon', heq⟩ := mem_map.mp hmem
    exact hcon.2 con' hcon' heq

theorem get?_owners_foldl {n : String} (cons : List Constructor) (owners : Dict String String) :
    (cons.foldl (fun owners con => owners.insert con.name n) owners).get? name =
      if name ∈ cons.map (·.name) then some n else owners.get? name := by
  induction cons generalizing owners with
  | nil => rfl
  | cons con cons ih =>
    rw [foldl_cons, ih, map_cons, Dict.get?_insert]
    by_cases hname : name = con.name <;> simp [hname]

/-- Constructors of registered types are none of the new ones. -/
theorem Linked.not_mem_new (h : types.Linked) {cons : List Constructor} (hnew : types.New cons)
    {n : String}
    (hd : types.get? n = some d) (hcon : con ∈ d.constructors) : con.name ∉ cons.map (·.name) := by
  intro hmem
  obtain ⟨con', hcon', heq⟩ := mem_map.mp hmem
  have hundeclared := hnew.undeclared con' hcon'
  rw [heq, hasConstructor, Dict.contains, h.owner hd hcon] at hundeclared
  cases hundeclared

/-- A data type with new constructors may be added. -/
theorem Linked.insert (h : types.Linked) (hnew : types.New d.constructors) :
    (types.insert d).Linked := by
  have hget {n : String} {d' : DataType} (hd' : (types.insert d).get? n = some d') :
      n = d.name ∧ d = d' ∨ n ≠ d.name ∧ types.get? n = some d' := by
    rw [get?_insert] at hd'
    split at hd'
    · exact .inl ⟨‹_›, Option.some.inj hd'⟩
    · exact .inr ⟨‹_›, hd'⟩
  refine ⟨fun hd' => ?_, fun {n d' con} hd' hcon => ?_, fun hd' => ?_⟩
  · rcases hget hd' with ⟨rfl, rfl⟩ | ⟨-, hd'⟩
    · rfl
    · exact h.name hd'
  · change (d.constructors.foldl
      (fun owners con => owners.insert con.name d.name) types.owners).get? con.name = some n
    rw [get?_owners_foldl]
    rcases hget hd' with ⟨rfl, rfl⟩ | ⟨-, hd'⟩
    · rw [if_pos (mem_map_of_mem hcon)]
    · rw [if_neg (h.not_mem_new hnew hd' hcon), h.owner hd' hcon]
  · rcases hget hd' with ⟨rfl, rfl⟩ | ⟨-, hd'⟩
    · exact hnew.distinct
    · exact h.distinct hd'

theorem get?_of_implHead? (h : ¬ (types.implHead? name).isSome = true) :
    types.get? name = none := by
  rw [implHead?] at h
  split at h
  · exact (h rfl).elim
  · simpa [arity?] using h

end DataTypes

namespace Checker

variable {c c' : Checker} {ds : List DataDecl} {entry : DataDecl × DataType}

/-! ## Recorded types -/

/-- What declaring data types leaves alone. -/
def besidesTypes (c : Checker) : Checker :=
  { c.entered with env := {}, registry := { c.registry with dataTypes := {} } }

/-- Nothing but data types has been declared. The registered ones are declared, their parameters
have been drawn, and the global names are their constructors. -/
structure TypesRecorded (ds : List DataDecl) (c : Checker) : Prop where
  pooled : c.fresh.Pooled
  rest : c.besidesTypes = besidesTypes {}
  plain : ∀ diag ∈ c.diagnostics, ∀ n, Spares n diag.message
  failed : ∀ n ∈ c.failed, ∃ d ∈ ds, n ∈ d.names
  scopes : c.env.scopes = []
  linked : c.registry.dataTypes.Linked
  gives : ∀ {n d}, c.registry.dataTypes.get? n = some d → ∃ decl ∈ ds, decl.Gives c.registry d
  drawn : ∀ {n d}, c.registry.dataTypes.get? n = some d →
    ∀ v ∈ d.paramVars, ¬ c.fresh.Upcoming (.type v)
  bound : ∀ {n d con}, c.registry.dataTypes.get? n = some d → con ∈ d.constructors →
    c.env.globals.get? con.name = some (d.constructorScheme con)
  origin : ∀ {name σ}, c.env.globals.get? name = some σ → ∃ n d con,
    c.registry.dataTypes.get? n = some d ∧ con ∈ d.constructors ∧ con.name = name ∧
      σ = d.constructorScheme con

theorem typesRecorded_start : TypesRecorded ds {} where
  pooled := Fresh.pooled_ready ⟨Blocks.spaced_default, Blocks.spaced_default⟩
  rest := rfl
  plain := forall_mem_nil _
  failed := forall_mem_nil _
  scopes := rfl
  linked := ⟨fun h => (nomatch h), fun h => (nomatch h), fun h => (nomatch h)⟩
  gives h := nomatch h
  drawn h := nomatch h
  bound h := nomatch h
  origin h := nomatch h

theorem TypesRecorded.idles {names : List String} (h : TypesRecorded ds c)
    (hidles : Idles names c c')
    (hnames : ∀ n ∈ names, ∃ d ∈ ds, n ∈ d.names) : TypesRecorded ds c' where
  pooled := hidles.fresh.pooled h.pooled
  rest := (congrArg besidesTypes hidles.entered :).trans h.rest
  plain diag hdiag := (hidles.plain diag hdiag).elim (h.plain diag) id
  failed n hn := (hidles.failed n hn).elim (h.failed n) (hnames n)
  scopes := hidles.env ▸ h.scopes
  linked := hidles.registry ▸ h.linked
  gives := hidles.registry ▸ h.gives
  drawn hd v hv hup := by
    rw [hidles.registry] at hd
    exact h.drawn hd v hv (hidles.fresh.later.upcoming hup)
  bound := hidles.registry ▸ hidles.env ▸ h.bound
  origin := hidles.registry ▸ hidles.env ▸ h.origin

/-- A declared type may be registered with new constructors that are bound, if there was none of its
name or one without constructors. -/
theorem TypesRecorded.insertData (h : TypesRecorded ds c) {decl : DataDecl} {type : DataType}
    (hdecl : decl ∈ ds) (hgives : decl.Gives c.registry type)
    (hdrawn : ∀ v ∈ type.paramVars, ¬ c.fresh.Upcoming (.type v))
    (hold : ∀ d, c.registry.dataTypes.get? type.name = some d → d.constructors = [] ∧
      d.arity = type.arity)
    (hnew : c.registry.dataTypes.New type.constructors) (env : Env)
    (hscopes : env.scopes = c.env.scopes)
    (hbound : ∀ con ∈ type.constructors, env.globals.get? con.name =
      some (type.constructorScheme con))
    (hother : ∀ name, name ∉ type.constructors.map (·.name) →
      env.globals.get? name = c.env.globals.get? name) :
    c.registry.Widens (c.registry.insertData type) ∧
      TypesRecorded ds { c with registry := c.registry.insertData type, env } := by
  have hget (n : String) : (c.registry.insertData type).dataTypes.get? n =
      if n = type.name then some type else c.registry.dataTypes.get? n :=
        DataTypes.get?_insert type n
  have hwidens : c.registry.Widens (c.registry.insertData type) := by
    refine ⟨fun {n k} hk => ?_, id⟩
    obtain ⟨d, hd, rfl⟩ := Option.map_eq_some_iff.mp hk
    rw [DataTypes.arity?, hget]
    split
    · rename_i heq
      rw [heq] at hd
      exact congrArg some (hold d hd).2.symm
    · exact hk
  refine ⟨hwidens, { h with
    rest := h.rest, linked := h.linked.insert hnew, scopes := hscopes.trans h.scopes,
    gives := fun {n d} hd => ?_, drawn := fun {n d} hd => ?_, bound := fun {n d con} hd hcon => ?_,
    origin := fun {name σ} hσ => ?_ }⟩
  · rw [hget] at hd
    split at hd
    · exact ⟨decl, hdecl, (Option.some.inj hd ▸ hgives).widens hwidens⟩
    · obtain ⟨decl', hdecl', hgives'⟩ := h.gives hd
      exact ⟨decl', hdecl', hgives'.widens hwidens⟩
  · rw [hget] at hd
    split at hd
    · exact Option.some.inj hd ▸ hdrawn
    · exact h.drawn hd
  · rw [hget] at hd
    split at hd
    · obtain rfl := Option.some.inj hd
      exact hbound con hcon
    · exact (hother _ (h.linked.not_mem_new hnew hd hcon)).trans (h.bound hd hcon)
  · by_cases hmem : name ∈ type.constructors.map (·.name)
    · obtain ⟨con, hcon, rfl⟩ := mem_map.mp hmem
      rw [hbound con hcon] at hσ
      exact ⟨type.name, type, con, (hget _).trans (if_pos rfl), hcon, rfl,
        (Option.some.inj hσ).symm⟩
    · rw [hother name hmem] at hσ
      obtain ⟨n, d, con, hd, hcon, hname, heq⟩ := h.origin hσ
      refine ⟨n, d, con, (hget n).trans ?_, hcon, hname, heq⟩
      rw [if_neg, hd]
      rintro rfl
      rw [(hold d hd).1] at hcon
      cases hcon

/-! ## Names -/

/-- The parameters of a data type have their names and are different variables that are drawn. -/
theorem freshParams_spec (hd : c.fresh.Distinct) (params : List String) :
    Idles [] c (c.freshParams params).2 ∧ (c.freshParams params).1.map (·.2) = params ∧
      ((c.freshParams params).1.map (·.1)).Nodup ∧
      ∀ v ∈ (c.freshParams params).1.map (·.1),
        c.fresh.HandedOut (c.freshParams params).2.fresh (.type v) := by
  induction params generalizing c with
  | nil => exact ⟨.refl c, rfl, nodup_nil, nofun⟩
  | cons name params ih =>
    have hfirst : Idles [] c c.freshTypeVar.2 := idles_of_fresh c.fresh.reaches_typeVar
    have hdrawn := hd.handedOut_typeVar
    obtain ⟨hidles, hnames, hnodup, hrest⟩ := ih (hfirst.fresh.later.distinct hd)
    refine ⟨hfirst.trans hidles, congrArg (name :: ·) hnames,
      nodup_cons.mpr ⟨fun hmem => hdrawn.2 (hrest _ hmem).1, hnodup⟩,
      forall_mem_cons.mpr ⟨hdrawn.later hidles.fresh.later, fun v hv => ?_⟩⟩
    exact (hrest v hv).earlier hfirst.fresh.later

/-- The type is declared and registered without constructors. -/
structure Entered (ds : List DataDecl) (c : Checker) (entry : DataDecl × DataType) : Prop where
  mem : entry.1 ∈ ds
  bare : entry.2.constructors = []
  gives : entry.1.Gives c.registry entry.2
  get : c.registry.dataTypes.get? entry.2.name = some entry.2

/-- Entering the names of data types records them, keeps those that are registered and gives entries
of new and different names. -/
theorem TypesRecorded.declareTypeNames (h : TypesRecorded ds c) (names : List DataDecl)
    (hnames : ∀ d ∈ names, d ∈ ds) :
    TypesRecorded ds (c.declareTypeNames names).2 ∧
      (∀ {n d}, c.registry.dataTypes.get? n = some d →
        (c.declareTypeNames names).2.registry.dataTypes.get? n = some d) ∧
      (∀ entry ∈ (c.declareTypeNames names).1, Entered ds (c.declareTypeNames names).2 entry ∧
        c.registry.dataTypes.get? entry.2.name = none) ∧
      ((c.declareTypeNames names).1.map (·.2.name)).Nodup ∧ (c.declareTypeNames names).2.env =
        c.env := by
  induction names generalizing c with
  | nil => exact ⟨h, id, nofun, nodup_nil, rfl⟩
  | cons d names ih =>
    obtain ⟨hd, hnames⟩ := forall_mem_cons.mp hnames
    rw [Checker.declareTypeNames]
    split
    · have hrejects : Rejects [] c (c.declarationError
          s!"type `{d.name.node}` is defined more than once" d.name.span) :=
        rejects_declarationError spares_of_start
      exact ih (h.idles hrejects.toIdles nofun) hnames
    · rename_i hname
      have hnone := DataTypes.get?_of_implHead? hname
      obtain ⟨hidles, hparams, hnodup, hdrawn⟩ := freshParams_spec h.pooled.distinct d.params
      rcases hrun : c.freshParams d.params with ⟨params, c₁⟩
      rw [hrun] at hidles hparams hnodup hdrawn
      dsimp only at hidles hparams hnodup hdrawn ⊢
      let type : DataType := { name := d.name.node, params, span := d.name.span }
      have hgives {reg : Registry} : d.Gives reg type := ⟨rfl, hparams, hnodup, nofun⟩
      have hget (n : String) : (c₁.registry.insertData type).dataTypes.get? n =
          if n = d.name.node then some type else c.registry.dataTypes.get? n := by
        rw [← hidles.registry]
        exact DataTypes.get?_insert type n
      have hold : ∀ d', c₁.registry.dataTypes.get? type.name = some d' →
          d'.constructors = [] ∧ d'.arity = type.arity := fun d' hd' => by
        rw [hidles.registry, hnone] at hd'
        cases hd'
      obtain ⟨hrecorded, hkept, hentries, hdistinct, henv⟩ :=
        ih ((h.idles hidles nofun).insertData hd hgives (fun v hv => (hdrawn v hv).2) hold
          (DataTypes.new_nil _) c₁.env rfl nofun fun _ _ => rfl).2 hnames
      -- the name just entered is not entered again
      have hnew {entry : DataDecl × DataType}
          (hnone' : (c₁.registry.insertData type).dataTypes.get? entry.2.name = none) :
          entry.2.name ≠ d.name.node ∧ c.registry.dataTypes.get? entry.2.name = none := by
        rw [hget] at hnone'
        split at hnone'
        · cases hnone'
        · exact ⟨‹_›, hnone'⟩
      refine ⟨hrecorded, fun {n d'} hd' => hkept ?_, forall_mem_cons.mpr
        ⟨⟨⟨hd, rfl, hgives, hkept ((hget _).trans (if_pos rfl))⟩, hnone⟩, fun entry hentry =>
          ⟨(hentries entry hentry).1, (hnew (hentries entry hentry).2).2⟩⟩,
        nodup_cons.mpr ⟨fun hmem => ?_, hdistinct⟩, henv.trans hidles.env⟩
      · refine (hget n).trans ((if_neg ?_).trans hd')
        rintro rfl
        rw [hnone] at hd'
        cases hd'
      · obtain ⟨entry, hentry, heq⟩ := mem_map.mp hmem
        exact (hnew (hentries entry hentry).2).1 heq

/-! ## Constructors -/

/-- Constructors with new names are read in the scope of the parameters, which is closed. -/
theorem declareConstructors_spec (type : DataType) (c : Checker) {sofar : List Constructor}
    (vs : List Variant) (hnew : c.registry.dataTypes.New sofar) :
    Idles [type.name] c (c.declareConstructors type sofar vs).2 ∧
      c.registry.dataTypes.New (c.declareConstructors type sofar vs).1 ∧
      ∀ con ∈ (c.declareConstructors type sofar vs).1, con ∈ sofar ∨
        ∃ v ∈ vs, v.Gives c.registry type.params con := by
  induction vs generalizing c sofar with
  | nil => exact ⟨.refl c, hnew, fun con hcon => .inl hcon⟩
  | cons v vs ih =>
    -- the first variant leaves the checker idle and may add one constructor
    have hrest {c₁ : Checker} (hidles : Idles [type.name] c c₁) {added : List Constructor}
        (hadded : c.registry.dataTypes.New added)
        (hgives : ∀ con ∈ added, con ∈ sofar ∨ v.Gives c.registry type.params con) :
        Idles [type.name] c (c₁.declareConstructors type added vs).2 ∧
          c.registry.dataTypes.New (c₁.declareConstructors type added vs).1 ∧
          ∀ con ∈ (c₁.declareConstructors type added vs).1, con ∈ sofar ∨
            ∃ v' ∈ v :: vs, v'.Gives c.registry type.params con := by
      obtain ⟨hidles', hnew', hcons⟩ := ih c₁ (hidles.registry.symm ▸ hadded)
      rw [hidles.registry] at hnew' hcons
      refine ⟨hidles.trans hidles', hnew', fun con hcon => ?_⟩
      rcases hcons con hcon with hcon | ⟨v', hv', hread⟩
      · exact (hgives con hcon).imp_right fun hread => ⟨v, .head _, hread⟩
      · exact .inr ⟨v', .tail _ hv', hread⟩
    rw [declareConstructors]
    split
    · exact hrest (rejects_declarationError spares_of_start).toIdles hnew
        fun con hcon => .inl hcon
    · rename_i hname
      have hact : Resolve.Stepwise (Resolve.types c.registry v.name.span v.fields) := .types _
      rcases resolve_cases hact c (.closed (type.params.map Prod.swap)) with
        ⟨e, c₁, hresolve, hrejects⟩ | ⟨fields, r, hrun, hreaches, hresolve⟩
      · simp only [hresolve]
        exact hrest (hrejects _).toIdles hnew fun con hcon => .inl hcon
      · simp only [hresolve]
        have hleads : Resolve.Leads _ r := hact.leads hrun
        have hreads := Resolve.reads_types hrun
        rw [hleads.scope_eq rfl] at hreads
        refine hrest (idles_of_fresh hreaches) (hnew.append_singleton hname) fun con hcon => ?_
        refine (mem_append.mp hcon).imp_right fun hcon => ?_
        rw [mem_singleton.mp hcon]
        exact ⟨rfl, hreads⟩

/-- Constructors with new names get their types as values, and nothing else changes. -/
theorem foldl_bindConstructor (type : DataType) {cons : List Constructor}
    (hnew : ∀ con ∈ cons, c.env.hasGlobal con.name = false) (hnodup : (cons.map (·.name)).Nodup) :
    ∃ env, cons.foldl (bindConstructor type) c = { c with env } ∧ env.scopes = c.env.scopes ∧
      (∀ con ∈ cons, env.globals.get? con.name = some (type.constructorScheme con)) ∧
      ∀ name, name ∉ cons.map (·.name) → env.globals.get? name = c.env.globals.get? name := by
  induction cons generalizing c with
  | nil => exact ⟨c.env, rfl, rfl, nofun, fun _ _ => rfl⟩
  | cons con cons ih =>
    obtain ⟨hcon, hcons⟩ := forall_mem_cons.mp hnew
    obtain ⟨hfirst, hnodup⟩ := nodup_cons.mp hnodup
    have hbind : bindConstructor type c con =
        c.bindGlobal con.name (type.constructorScheme con) := by
      rw [bindConstructor, hcon, if_neg Bool.false_ne_true]
    have hnew' : ∀ con' ∈ cons, (c.bindGlobal con.name (type.constructorScheme con)).env.hasGlobal
        con'.name = false := by
      intro con' hcon'
      rw [← Bool.not_eq_true]
      intro hglobal
      rcases hasGlobal_bindGlobal.mp hglobal with hglobal | heq
      · rw [hcons con' hcon'] at hglobal
        cases hglobal
      · exact hfirst (mem_map.mpr ⟨con', hcon', heq⟩)
    obtain ⟨env, hfold, hscopes, hbound, hother⟩ := ih hnew' hnodup
    rw [foldl_cons, hbind]
    refine ⟨env, hfold, hscopes, forall_mem_cons.mpr ⟨?_, hbound⟩, fun name hname => ?_⟩
    · rw [hother _ hfirst]
      exact (Dict.get?_insert _ _ _ _).trans (if_pos rfl)
    · rw [map_cons, mem_cons, not_or] at hname
      rw [hother name hname.2]
      exact (Dict.get?_insert _ _ _ _).trans (if_neg hname.1)

/-! ## Declared types -/

/-- Declaring the constructors of a type records them and leaves the other entries as they are. -/
theorem TypesRecorded.declareData (h : TypesRecorded ds c) (hentry : Entered ds c entry) :
    TypesRecorded ds (c.declareData entry) ∧ ∀ {entry'}, Entered ds c entry' →
      entry'.2.name ≠ entry.2.name → Entered ds (c.declareData entry) entry' := by
  obtain ⟨hidles, hcons, hgives⟩ :=
    declareConstructors_spec entry.2 c entry.1.variants (DataTypes.new_nil _)
  rw [Checker.declareData]
  rcases hrun : c.declareConstructors entry.2 [] entry.1.variants with ⟨cons, c₁⟩
  rw [hrun] at hidles hcons hgives
  dsimp only at hidles hcons hgives ⊢
  have hrecorded : TypesRecorded ds c₁ := h.idles hidles <| forall_mem_singleton.mpr
    ⟨entry.1, hentry.mem, hentry.gives.name ▸ (.head _)⟩
  rw [← hidles.registry] at hcons hgives
  let type : DataType := { entry.2 with constructors := cons }
  -- a constructor that is global belongs to a registered type, so the new ones are not global
  have hnew : ∀ con ∈ cons, c₁.env.hasGlobal con.name = false := by
    intro con hcon
    rw [← Bool.not_eq_true]
    intro hglobal
    obtain ⟨σ, hσ⟩ := Option.isSome_iff_exists.mp hglobal
    obtain ⟨n, d, con', hd, hcon', hname, -⟩ := hrecorded.origin hσ
    exact hrecorded.linked.not_mem_new hcons hd hcon' (hname ▸ mem_map_of_mem hcon)
  obtain ⟨env, hfold, hscopes, hbound, hother⟩ := foldl_bindConstructor type hnew hcons.distinct
  simp only [type] at hfold
  rw [hfold]
  have hget : c₁.registry.dataTypes.get? type.name = some entry.2 := hidles.registry ▸ hentry.get
  have hold : ∀ d, c₁.registry.dataTypes.get? type.name = some d →
      d.constructors = [] ∧ d.arity = type.arity := fun d hd => by
    rw [hget] at hd
    rw [← Option.some.inj hd]
    exact ⟨hentry.bare, rfl⟩
  have hdecl : entry.1.Gives c₁.registry type := by
    refine ⟨hentry.gives.name, hentry.gives.params, hentry.gives.distinct, fun con hcon => ?_⟩
    exact (hgives con hcon).resolve_left not_mem_nil
  obtain ⟨hwidens, hall⟩ := hrecorded.insertData hentry.mem hdecl
    (fun v hv => hrecorded.drawn hget v hv) hold hcons env hscopes hbound hother
  refine ⟨hall, fun {entry'} hentry' hne => ⟨hentry'.mem, hentry'.bare, ?_, ?_⟩⟩
  · exact (hidles.registry.symm ▸ hentry'.gives).widens hwidens
  · refine (DataTypes.get?_insert type _).trans ((if_neg hne).trans ?_)
    exact hidles.registry ▸ hentry'.get

theorem TypesRecorded.foldl_declareData {entries : List (DataDecl × DataType)}
    (h : TypesRecorded ds c)
    (hentries : ∀ entry ∈ entries, Entered ds c entry) (hnodup : (entries.map (·.2.name)).Nodup) :
    TypesRecorded ds (entries.foldl Checker.declareData c) := by
  induction entries generalizing c with
  | nil => exact h
  | cons entry entries ih =>
    obtain ⟨hentry, hentries⟩ := forall_mem_cons.mp hentries
    obtain ⟨hfirst, hnodup⟩ := nodup_cons.mp hnodup
    obtain ⟨hrecorded, hothers⟩ := h.declareData hentry
    refine ih hrecorded (fun entry' hentry' => hothers (hentries entry' hentry')
      fun heq => ?_) hnodup
    exact hfirst (mem_map.mpr ⟨entry', hentry', heq⟩)

/-- The data types of a module are recorded as they are declared. -/
theorem typesRecorded_declareTypes (ds : List DataDecl) :
    TypesRecorded ds (declareTypes {} ds) := by
  obtain ⟨hrecorded, -, hentries, hnodup, -⟩ :=
    typesRecorded_start.declareTypeNames ds fun _ hd => hd
  exact hrecorded.foldl_declareData (fun entry hentry => (hentries entry hentry).1) hnodup

end Checker

end RowTyping
