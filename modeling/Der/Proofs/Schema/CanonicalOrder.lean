import Mathlib.Data.List.Nodup
import Der.Proofs.Schema.Grammar

namespace Der

open Decoding

/-- The tag stands before the other in the canonical order: by class, and then by number. -/
def Tag.Precedes (s t : Tag) : Prop :=
  ∃ c n c' n' : Nat, s.tagClass = c ∧ s.number = n ∧ t.tagClass = c' ∧ t.number = n' ∧ (c < c' ∨ c = c' ∧ n < n')

theorem Tag.Precedes.ne {s t : Tag} (before : s.Precedes t) : s ≠ t := by
  rintro rfl
  obtain ⟨c, n, c', n', isClass, isNumber, isClass', isNumber', less⟩ := before
  have sameClass : c = c' := Number.natCast_inj (isClass.symm.trans isClass')
  have sameNumber : n = n' := Number.natCast_inj (isNumber.symm.trans isNumber')
  omega

theorem Tag.WellFormed.precedes {s t : Tag} (valid : s.WellFormed) (valid' : t.WellFormed) (less : s.rank < t.rank) :
    s.Precedes t := by
  obtain ⟨c, n, smallClass, smallNumber, isClass, isNumber⟩ := valid
  obtain ⟨c', n', smallClass', smallNumber', isClass', isNumber'⟩ := valid'
  have places : c * (maxNumber + 1) + n < c' * (maxNumber + 1) + n' := by
    simpa only [rank, isClass, isClass', isNumber, isNumber', Number.toNat?_natCast, Option.getD_some] using less
  refine ⟨c, n, c', n', isClass, isNumber, isClass', isNumber', ?_⟩
  rcases Nat.lt_trichotomy c c' with lower | same | higher
  · exact Or.inl lower
  · subst same
    exact Or.inr ⟨rfl, by omega⟩
  · have scale : (c' + 1) * (maxNumber + 1) ≤ c * (maxNumber + 1) := Nat.mul_le_mul_right _ higher
    rw [Nat.succ_mul] at scale
    omega

/-- Both fields have fixed tags, and that of the first stands before that of the second. -/
def Field.Precedes (f g : Field Codec) : Prop :=
  ∃ s t : Tag, f.type.tag? = some s ∧ g.type.tag? = some t ∧ s.Precedes t

namespace Field

variable {fields others : List (Field Codec)}

theorem exclusive_of_precedes (ascending : fields.Pairwise Precedes) : Exclusive fields := by
  refine ascending.imp ?_
  rintro f g ⟨s, t, isFirst, isSecond, before⟩ u accepted
  rw [Bool.eq_false_iff]
  intro shared
  exact before.ne ((Codec.eq_of_accepts isFirst shared).symm.trans (Codec.eq_of_accepts isSecond accepted))

theorem precedes_of_strict (placed : ∀ m ∈ fields.map Member.ofField, m.Placed)
    (strict : (fields.map Member.ofField).Pairwise fun a b => a.rank < b.rank) : fields.Pairwise Precedes := by
  rw [List.pairwise_map] at strict
  refine strict.imp_of_mem ?_
  intro f g first second less
  obtain ⟨s, isFirst, valid⟩ := placed _ (List.mem_map_of_mem first)
  obtain ⟨t, isSecond, valid'⟩ := placed _ (List.mem_map_of_mem second)
  rw [Member.rank_eq isFirst, Member.rank_eq isSecond] at less
  exact ⟨s, t, isFirst, isSecond, valid.precedes valid' less⟩

theorem checkDefaults_of_toOctets
    (written : ∀ f ∈ fields, ∀ v, f.presence.default? = some v → ∃ octets, f.type.toOctets v = .ok octets) :
    checkDefaults fields = .ok () := by
  induction fields with
  | nil => rfl
  | cons f rest ih =>
    have others := ih fun g later => written g (List.mem_cons_of_mem f later)
    rw [checkDefaults]
    cases default : f.presence.default? with
    | none => exact others
    | some v =>
      obtain ⟨octets, own⟩ := written f List.mem_cons_self v default
      simp only [own]
      exact others

theorem checkDefaults_perm (same : others.Perm fields) (accepted : checkDefaults fields = .ok ()) :
    checkDefaults others = .ok () := by
  have written := Schema.toOctets_of_checkDefaults accepted
  exact checkDefaults_of_toOctets fun f within => written f (same.mem_iff.mp within)

theorem untagged?_perm (same : others.Perm fields) (fixed : untagged? fields = none) : untagged? others = none := by
  rw [untagged?, Option.map_eq_none_iff, List.find?_eq_none] at fixed ⊢
  exact fun f within => fixed f (same.mem_iff.mp within)

end Field

namespace Member

variable {members others : List Member}

/-- Members whose places differ have one canonical order only. -/
theorem canonical_eq_of_perm (placed : ∀ m ∈ members, m.Placed)
    (strict : (canonical members).Pairwise fun a b => a.rank < b.rank) (same : others.Perm members) :
    canonical others = canonical members := by
  have order := (canonical_perm others).trans (same.trans (canonical_perm members).symm)
  have places : ((canonical members).map rank).Nodup :=
    List.pairwise_map.mpr (strict.imp Nat.ne_of_lt)
  refine order.eq_of_pairwise ?_ (canonical_pairwise fun m within => placed m (same.mem_iff.mp within))
    (strict.imp Nat.le_of_lt)
  intro a b first second less more
  exact List.inj_on_of_nodup_map places (order.mem_iff.mp first) second (Nat.le_antisymm less more)

end Member

namespace Schema

variable {name : String} {tag : Tag} {tagClass? number? : Option Number} {fields others : List (Field Schema)}

/-- The fields in the canonical order of their tags. -/
def canonicalFields (fields : List (Field Schema)) : List (Field Schema) :=
  fields.mergeSort fun f g =>
    match f.type.codec.tag?, g.type.codec.tag? with
    | some s, some t => !(Number.less 0 (s.compare t))
    | _, _ => true

theorem canonicalFields_perm (fields : List (Field Schema)) : (canonicalFields fields).Perm fields :=
  List.mergeSort_perm fields _

theorem members_canonicalFields (fields : List (Field Schema)) :
    (fieldCodecs (canonicalFields fields)).map Member.ofField =
      Member.canonical ((fieldCodecs fields).map Member.ofField) := by
  rw [fieldCodecs_eq_map, fieldCodecs_eq_map, List.map_map, List.map_map]
  exact List.map_mergeSort fun _ _ _ _ => rfl

theorem fieldCodecs_perm (same : others.Perm fields) : (fieldCodecs others).Perm (fieldCodecs fields) := by
  rw [fieldCodecs_eq_map, fieldCodecs_eq_map]
  exact same.map _

section

variable (valid : ∀ f ∈ fields, ∀ t, f.type.codec.tag? = some t → t.WellFormed)
  (fixed : Field.untagged? (fieldCodecs fields) = none)
  (distinct : Field.repeated? (Member.canonical ((fieldCodecs fields).map Member.ofField)) = none)

include valid fixed distinct

/-- The fields of an accepted set ascend strictly in the canonical order. -/
theorem precedes_canonicalFields : (fieldCodecs (canonicalFields fields)).Pairwise Field.Precedes := by
  have placed := placed_of_untagged? valid fixed
  have strict := Member.strict_canonical placed distinct
  refine Field.precedes_of_strict ?_ ?_
  · rw [members_canonicalFields]
    exact fun m within => placed m (Member.mem_canonical within)
  · rwa [members_canonicalFields]

/-- Another order of the fields gives the same members. -/
theorem canonical_eq_of_perm (same : others.Perm fields) :
    Member.canonical ((fieldCodecs others).map Member.ofField) =
      Member.canonical ((fieldCodecs fields).map Member.ofField) := by
  have placed := placed_of_untagged? valid fixed
  exact Member.canonical_eq_of_perm placed (Member.strict_canonical placed distinct)
    ((fieldCodecs_perm same).map Member.ofField)

end

section

variable (types : ∀ f ∈ fields, f.type.Declared) (blind : ∀ f ∈ fields, f.type.ByContent)
  (ascending : (fieldCodecs (canonicalFields fields)).Pairwise Field.Precedes)
  {d : Decoder} {content more : Octets} (bounded : d.Bounded) (ahead : d.rest = content ++ more)
  (shallow : d.maxDepth.less (d.depth + 1 : Nat) = false)

theorem mem_of_canonicalFields {f : Field Schema} (within : f ∈ canonicalFields fields) : f ∈ fields :=
  (canonicalFields_perm fields).mem_iff.mp within

theorem unread_canonicalFields (named : (fields.map Field.name).Nodup) (usual : "__proto__" ∉ fields.map Field.name) :
    Member.Unread ((fieldCodecs (canonicalFields fields)).map Member.ofField) [] := by
  have same := (canonicalFields_perm fields).map Field.name
  rw [members_eq]
  exact unread_of_fields (same.nodup_iff.mpr named) fun within => usual (same.mem_iff.mp within)

include types blind

theorem portable_canonicalFields : ∀ f ∈ fieldCodecs (canonicalFields fields), f.type.Portable :=
  portable_of_fields (fun f within => types f (mem_of_canonicalFields within))
    fun f within => blind f (mem_of_canonicalFields within)

include ascending bounded ahead shallow

/-- The content of a set is composed of members in the canonical order, and whatever is so composed is read. -/
theorem set_readsMembers (named : (fields.map Field.name).Nodup) (usual : "__proto__" ∉ fields.map Field.name) :
    (TaggedCodec.set name tag (fieldCodecs fields)).ReadsMembers (fieldCodecs (canonicalFields fields))
      (fieldLayers fields) d content := by
  have types' : ∀ f ∈ canonicalFields fields, f.type.Declared := fun f within => types f (mem_of_canonicalFields within)
  have blind' : ∀ f ∈ canonicalFields fields, f.type.ByContent := fun f within => blind f (mem_of_canonicalFields within)
  have portable := portable_canonicalFields types blind
  have exclusive := Field.exclusive_of_precedes ascending
  have fresh : Field.Exclusive ([] ++ fieldCodecs (canonicalFields fields)) := exclusive
  have unread := unread_canonicalFields named usual
  have members := members_canonicalFields fields
  obtain ⟨inside, inner⟩ := bounded.scope_of_ahead ahead
  have deep : ∀ f ∈ canonicalFields fields, f.type.layers ≤ fieldLayers fields :=
    fun f within => layers_le_fieldLayers (mem_of_canonicalFields within)
  have body : (TaggedCodec.set name tag (fieldCodecs fields)).readContent content.length =
      nested content.length (do
        return Value.record (← Member.readSet name [] ((fieldCodecs (canonicalFields fields)).map Member.ofField) [])) := by
    rw [members]
    rfl
  refine readsMembers types' blind' deep exclusive.apart bounded ahead shallow body ?_ ?_
  · exact fun read => Member.grows_of_readSet portable unread inside read
  · rintro parts record composes rfl
    exact Member.run_readSet_of_composes portable fresh unread inside composes inner

/-- Components that are repeated or out of order are refused. -/
theorem set_refusesDisorder : (TaggedCodec.set name tag (fieldCodecs fields)).RefusesDisorder
    (fieldCodecs (canonicalFields fields)) d content := by
  have portable := portable_canonicalFields types blind
  have exclusive := Field.exclusive_of_precedes ascending
  have members := members_canonicalFields fields
  obtain ⟨inside, inner⟩ := bounded.scope_of_ahead ahead
  intro passed todo parts record octets tail whole composes same t f leads within accepted
  replace inner := inner.trans same
  rw [whole] at portable exclusive members
  obtain ⟨e, refused⟩ := Member.run_readSet_of_disordered name []
    (fun g before => portable g (List.mem_append_left todo before)) exclusive inside composes inner leads within accepted
  rw [members] at refused
  exact ⟨_, run_nested_of_error bounded ahead shallow (run_map_of_error refused), rfl, rfl⟩

end

theorem declareSet_of_checks (defaults : Field.checkDefaults (fieldCodecs fields) = .ok ())
    (fixed : Field.untagged? (fieldCodecs fields) = none)
    (distinct : Field.repeated? (Member.canonical ((fieldCodecs fields).map Member.ofField)) = none) :
    declareSet name tagClass? number? fields = .ok (set name (constructedTag tagClass? number? setNumber) fields) := by
  simp only [declareSet, defaults, fixed, distinct]
  rfl

/-- A set is accepted in every order of its fields. -/
theorem declareSet_of_perm (valid : ∀ f ∈ fields, ∀ t, f.type.codec.tag? = some t → t.WellFormed) {T : Schema}
    (accepted : declareSet name tagClass? number? fields = .ok T) (same : others.Perm fields) :
    ∃ T', declareSet name tagClass? number? others = .ok T' ∧ T'.codec = T.codec := by
  obtain ⟨rfl, defaults, fixed, distinct⟩ := declareSet_eq_ok accepted
  have order := fieldCodecs_perm same
  have canonical := canonical_eq_of_perm valid fixed distinct same
  rw [← canonical] at distinct
  refine ⟨_, declareSet_of_checks (Field.checkDefaults_perm order defaults) (Field.untagged?_perm order fixed) distinct, ?_⟩
  simp only [codec, TaggedCodec.set, canonical]

/-- An accepted set reads just what is composed of members in the strictly ascending order of their tags, and refuses what
comes too late. In every other order of its fields it is accepted as well, builds the same documents and parses all
documents alike. What is read under the name of the prototype does not become a member, so that the record is what has
been composed if no field bears this name. -/
theorem declareSet_canonical_order {T : Schema} (accepted : declareSet name tagClass? number? fields = .ok T)
    (types : ∀ f ∈ fields, f.type.Declared) (blind : ∀ f ∈ fields, f.type.ByContent)
    (named : (fields.map Field.name).Nodup) (valid : ∀ f ∈ fields, ∀ t, f.type.codec.tag? = some t → t.WellFormed) :
    (canonicalFields fields).Perm fields ∧ (fieldCodecs (canonicalFields fields)).Pairwise Field.Precedes ∧
    (∃ c, T.codec = .tagged c ∧ c.name = name ∧ ∀ {d : Decoder} {content more : Octets}, d.Bounded →
      d.rest = content ++ more → d.maxDepth.less (d.depth + 1 : Nat) = false →
      ("__proto__" ∉ fields.map Field.name →
        c.ReadsMembers (fieldCodecs (canonicalFields fields)) (fieldLayers fields) d content) ∧
      c.RefusesDisorder (fieldCodecs (canonicalFields fields)) d content) ∧
    ∀ {others : List (Field Schema)}, others.Perm fields →
      ∃ T', declareSet name tagClass? number? others = .ok T' ∧
        (∀ v, Document.build T'.codec v = Document.build T.codec v) ∧
        ∀ limit document, Document.parse T'.codec limit document = Document.parse T.codec limit document := by
  have alike : ∀ {others : List (Field Schema)}, others.Perm fields →
      ∃ T', declareSet name tagClass? number? others = .ok T' ∧ T'.codec = T.codec := declareSet_of_perm valid accepted
  obtain ⟨rfl, _, fixed, distinct⟩ := declareSet_eq_ok accepted
  have ascending := precedes_canonicalFields valid fixed distinct
  refine ⟨canonicalFields_perm fields, ascending, ⟨_, rfl, rfl, ?_⟩, ?_⟩
  · intro d content more bounded ahead shallow
    exact ⟨set_readsMembers types blind ascending bounded ahead shallow named,
      set_refusesDisorder types blind ascending bounded ahead shallow⟩
  · intro others same
    obtain ⟨T', accepted', codecs⟩ := alike same
    refine ⟨T', accepted', ?_, ?_⟩
    · intro v
      rw [codecs]
    · intro limit document
      rw [codecs]

/-- A flag stands before a number. Declared the other way round, the set is the same. -/
theorem declareSet_of_number_and_flag :
    ∃ T', declareSet "Options" none none [⟨"number", .default (.integer 0), .primitive .integer⟩,
        .required "flag" (.primitive .boolean)] = .ok T' ∧
      (∀ v, Document.build T'.codec v = Document.build (set "Options" ⟨0, true, 17⟩ [.required "flag" (.primitive .boolean),
        ⟨"number", .default (.integer 0), .primitive .integer⟩]).codec v) ∧
      ∀ limit document, Document.parse T'.codec limit document = Document.parse (set "Options" ⟨0, true, 17⟩
        [.required "flag" (.primitive .boolean), ⟨"number", .default (.integer 0), .primitive .integer⟩]).codec
          limit document := by
  have ordered : Member.canonical [.ofField (.required "flag" (primitive .boolean).codec),
      .ofField ⟨"number", .default (.integer 0), (primitive .integer).codec⟩] =
      [.ofField (.required "flag" (primitive .boolean).codec),
        .ofField ⟨"number", .default (.integer 0), (primitive .integer).codec⟩] :=
    List.mergeSort_of_pairwise (List.pairwise_pair.mpr rfl)
  have distinct : Field.repeated? (Member.canonical [.ofField (.required "flag" (primitive .boolean).codec),
      .ofField ⟨"number", .default (.integer 0), (primitive .integer).codec⟩]) = none := by
    rw [ordered]
    rfl
  have accepted : declareSet "Options" none none [.required "flag" (.primitive .boolean),
      ⟨"number", .default (.integer 0), .primitive .integer⟩] = .ok (set "Options" ⟨0, true, 17⟩
        [.required "flag" (.primitive .boolean), ⟨"number", .default (.integer 0), .primitive .integer⟩]) :=
    declareSet_of_checks rfl rfl distinct
  have types : ∀ f ∈ [Field.required "flag" (primitive .boolean), ⟨"number", .default (.integer 0), primitive .integer⟩],
      f.type.Declared := List.forall_mem_cons.mpr ⟨.primitive .boolean, List.forall_mem_singleton.mpr (.primitive .integer)⟩
  have blind : ∀ f ∈ [Field.required "flag" (primitive .boolean), ⟨"number", .default (.integer 0), primitive .integer⟩],
      f.type.ByContent :=
    List.forall_mem_cons.mpr ⟨primitive_byContent _, List.forall_mem_singleton.mpr (primitive_byContent _)⟩
  have valid : ∀ f ∈ [Field.required "flag" (primitive .boolean), ⟨"number", .default (.integer 0), primitive .integer⟩],
      ∀ t, f.type.codec.tag? = some t → t.WellFormed := by
    refine List.forall_mem_cons.mpr ⟨?_, List.forall_mem_singleton.mpr ?_⟩
    · intro t fixed
      cases fixed
      exact Primitive.boolean.wellFormed
    · intro t fixed
      cases fixed
      exact Primitive.integer.wellFormed
  exact (declareSet_canonical_order accepted types blind (by decide) valid).2.2.2 (.swap _ _ _)

/-- A flag under the name of the prototype is composed like any other, and lost. -/
theorem set_loses_prototype :
    ((TaggedCodec.set "S" ⟨0, true, 17⟩ (fieldCodecs [.required "__proto__" (.primitive .boolean)])).readContent
        3).run ⟨[0x31, 3, 1, 1, 0xFF], 2, 5, 0, 100⟩ = .ok (.record []) ⟨[0x31, 3, 1, 1, 0xFF], 5, 5, 0, 100⟩ ∧
      ∀ layers, ¬ (TaggedCodec.set "S" ⟨0, true, 17⟩
        (fieldCodecs [.required "__proto__" (.primitive .boolean)])).ReadsMembers
          (fieldCodecs [.required "__proto__" (.primitive .boolean)]) layers ⟨[0x31, 3, 1, 1, 0xFF], 2, 5, 0, 100⟩
          [1, 1, 0xFF] := by
  have alone : Member.canonical ((fieldCodecs [.required "__proto__" (.primitive .boolean)]).map Member.ofField) =
      [.ofField (.required "__proto__" (primitive .boolean).codec)] := List.mergeSort_singleton _
  have body : (TaggedCodec.set "S" ⟨0, true, 17⟩ (fieldCodecs [.required "__proto__" (.primitive .boolean)])).readContent
      3 = nested 3 (do return Value.record (← Member.readSet "S" []
        [.ofField (.required "__proto__" (primitive .boolean).codec)] [])) := by
    rw [TaggedCodec.set, alone]
  have read : (nested 3 (do return Value.record (← Member.readSet "S" []
      [.ofField (.required "__proto__" (primitive .boolean).codec)] []))).run ⟨[0x31, 3, 1, 1, 0xFF], 2, 5, 0, 100⟩ =
        .ok (.record []) ⟨[0x31, 3, 1, 1, 0xFF], 5, 5, 0, 100⟩ := by
    simp only [Member.readSet]
    rfl
  refine ⟨by rw [body, read], fun layers reads => ?_⟩
  have composes : Field.Composes 1 100 (fieldCodecs [.required "__proto__" (.primitive .boolean)]) [some [1, 1, 0xFF]]
      [("__proto__", .boolean true)] := by
    refine .present rfl ?_ .nil
    intro u default
    cases default
  obtain ⟨v, e, run, same⟩ := (reads.reads_iff _).mpr ⟨_, _, composes, rfl, rfl⟩
  cases (body ▸ run).symm.trans read
  cases same

end Schema

end Der
