import Der.Keys.PublicKeyInfo
import Der.Proofs.Capture
import Der.Proofs.Keys.Rsa

namespace Der

open Encoding

namespace Rsa

/-- The members of a public key. -/
def publicNumbers : List String :=
  ["modulus", "publicExponent"]

/-- The encoding of a public key. -/
def publicOctets (numbers : List Nat) : Octets :=
  Element.sequence (numbers.map number)

/-- The record has windows on a modulus and an exponent. -/
structure ShowsPublicKey (entries : Record) (modulus exponent : Octets) : Prop where
  modulus : ∃ window, entries.get? "modulus" = some (.octets window) ∧ window.octets = .ok modulus
  exponent : ∃ window, entries.get? "publicExponent" = some (.octets window) ∧ window.octets = .ok exponent

theorem ShowsPublicKey.has {entries : Record} {modulus exponent : Octets}
    (shows : ShowsPublicKey entries modulus exponent) :
    HasMagnitudes entries publicNumbers [Octets.toNat modulus, Octets.toNat exponent] := by
  obtain ⟨first, present, shown⟩ := shows.modulus
  obtain ⟨second, present', shown'⟩ := shows.exponent
  exact .cons ⟨_, present, first, _, rfl, shown, rfl⟩ (.cons ⟨_, present', second, _, rfl, shown', rfl⟩ .nil)

/-- The public key with the modulus and the exponent. -/
def publicEntries (modulus exponent : Octets) : Record :=
  [("modulus", .octets (.ofOctets modulus)), ("publicExponent", .octets (.ofOctets exponent))]

theorem magnitudes_eq_publicEntries (modulus exponent : Octets) :
    magnitudes publicNumbers [Octets.toNat modulus, Octets.toNat exponent] =
      publicEntries (Content.Integer.trim modulus) (Content.Integer.trim exponent) := by
  rw [Content.Integer.trim_eq_ofNat, Content.Integer.trim_eq_ofNat]
  rfl

theorem publicKey_eq : publicKey = .plainSequence "RSAPublicKey" (numberFields publicNumbers) := rfl

theorem publicKey_declared : publicKey.Declared :=
  declared_of_numbers "RSAPublicKey" publicNumbers rfl

theorem publicKey_plain : publicKey.Plain :=
  plain_of_numbers "RSAPublicKey" publicNumbers (by decide) (by decide)

/-- Public keys have no conditions. -/
theorem publicKey_regular (v : Value) : publicKey.Regular v := by
  refine publicKey_plain.regular ?_
  intro inner condition u part
  rw [publicKey_eq, Schema.plainSequence] at part
  cases part with
  | sequence members field entry within =>
    rw [numberFields_type field] at within
    cases within

section

variable {entries : Record} {numbers : List Nat} (has : HasMagnitudes entries publicNumbers numbers)

include has

/-- What is written for the record of a public key. -/
theorem yields_publicKey (fits : (numbers.map number).flatten.length ≤ Length.max) :
    Yields (publicKey.codec.encodedLength (.record entries)) (publicKey.codec.encode (.record entries))
      (publicOctets numbers) :=
  (Schema.plainSequence_yields_iff (lays_only_numbers has)).mpr ⟨fits, rfl⟩

/-- The encoding of a public key is parsed as the key with minimal magnitudes. -/
theorem parse_publicKey (fits : (numbers.map number).flatten.length ≤ Length.max) {maxDepth : Number}
    (enough : ¬ maxDepth.less 1 = true) :
    ∃ v, Document.parse publicKey.codec maxDepth (publicOctets numbers) = .ok v ∧
      v.shown = .record (magnitudes publicNumbers numbers) := by
  obtain ⟨v, parsed, same⟩ := publicKey_plain.parse_of_yields publicKey_declared enough (publicKey_regular _)
    (yields_publicKey has fits)
  refine ⟨v, parsed, same.trans ?_⟩
  rw [← shown_numbers has]
  exact Value.shown_record _

end

end Rsa

namespace AlgorithmIdentifier

/-- The fields of algorithm identifiers. -/
def fields : List (Field Schema) :=
  [.required "algorithm" (.primitive .objectIdentifier), .optional "parameters" .any]

theorem schema_eq : schema = .plainSequence "AlgorithmIdentifier" fields := rfl

theorem declared : schema.Declared := by
  have accepted : Schema.declareSequence "AlgorithmIdentifier" none none fields = .ok schema := rfl
  refine .sequence ?_ accepted
  intro f field
  rcases List.mem_cons.mp field with rfl | last
  · exact .primitive _
  · rw [List.mem_singleton.mp last]
    exact .any

/-- The types that algorithm identifiers are built from. -/
theorem eq_of_contains {S : Schema} (within : schema.Contains S) :
    S = schema ∨ S = .any ∨ ∃ p, S = .primitive p := by
  rcases within.eq_or_child with same | ⟨U, direct, inner⟩
  · exact Or.inl same
  right
  rcases List.mem_cons.mp direct with rfl | last
  · exact Or.inr ⟨_, inner.eq_of_primitive⟩
  · rw [List.mem_singleton.mp last] at inner
    rcases inner.eq_or_child with same | ⟨W, direct, _⟩
    · exact Or.inl same
    · cases direct

/-- The algorithm of RSA keys with NULL as parameters. -/
def rsaOctets : Octets :=
  Element.sequence [Element.octets 6 [0x2A, 0x86, 0x48, 0x86, 0xF7, 0x0D, 1, 1, 1], Element.octets 5 []]

/-- The algorithm is that of RSA keys, and its parameters are a captured NULL. -/
structure IsRsa (a : AlgorithmIdentifier) : Prop where
  algorithm : a.algorithm = rsaEncryption
  parameters : ∃ any, a.parameters = some any ∧ any.tag = Primitive.null.codec.tag ∧
    any.encoded.octets = .ok (Element.octets 5 [])

theorem encode_rsaEncryption :
    Content.ObjectIdentifier.encode rsaEncryption = .ok [0x2A, 0x86, 0x48, 0x86, 0xF7, 0x0D, 1, 1, 1] := rfl

/-- Only a captured NULL can be interpreted as NULL. -/
theorem decodeAs_null {a : Any} : (∃ v, a.decodeAs (Schema.primitive .null).codec Decoder.defaultMaxDepth = .ok v) ↔
    a.tag = Primitive.null.codec.tag ∧ a.encoded.octets = .ok (Element.octets 5 []) := by
  constructor
  · intro read
    obtain ⟨v, read⟩ := read
    obtain ⟨accepted, octets, shows, parsed⟩ := Any.decodeAs_eq_ok_iff.mp read
    have yields := (Schema.plain_primitive .null).yields_of_parse (.primitive .null) parsed
    obtain ⟨_, rfl⟩ := ((Primitive.null_lays v).yields_iff rfl).mp yields
    exact ⟨Codec.eq_of_accepts (c := (Schema.primitive .null).codec) rfl accepted, shows⟩
  · intro parts
    obtain ⟨tag, shows⟩ := parts
    have accepted : (Schema.primitive .null).codec.accepts a.tag = true := by
      rw [tag]
      rfl
    exact ⟨.null, Any.decodeAs_eq_ok_iff.mpr ⟨accepted, _, shows, rfl⟩⟩

section

variable {r : Record} {a : AlgorithmIdentifier}

theorem expect_eq_ok {algorithm : String} : a.expect algorithm = .ok () ↔ a.algorithm = algorithm := by
  rw [expect]
  by_cases same : a.algorithm = algorithm
  · rw [if_pos same]
    exact iff_of_true rfl same
  · rw [if_neg same]
    exact iff_of_false nofun same

theorem ofRecord?_eq_some : ofRecord? r = some a ↔
    r.get? "algorithm" = some (.text a.algorithm) ∧ r.get? "parameters" = a.parameters.map Value.any := by
  constructor
  · intro is
    rw [ofRecord?] at is
    split at is
    · rename_i algorithm any first second
      cases is
      exact ⟨first, second⟩
    · rename_i algorithm first second
      cases is
      exact ⟨first, second⟩
    · cases is
  · intro parts
    obtain ⟨first, second⟩ := parts
    rw [ofRecord?, first, second]
    obtain ⟨algorithm, _ | any⟩ := a <;> rfl

/-- The only open component of an algorithm identifier is its parameters. -/
theorem parameters_of_component {any : Any} (is : ofRecord? r = some a)
    (part : schema.Component (.record r) .any (.any any)) : a.parameters = some any := by
  obtain ⟨_, parameters⟩ := ofRecord?_eq_some.mp is
  rw [schema_eq, Schema.plainSequence] at part
  cases part with
  | sequence members field entry within =>
    cases members
    rcases List.mem_cons.mp field with rfl | last
    · cases within
    · cases List.mem_singleton.mp last
      cases within
      obtain ⟨any', given, same⟩ := Option.map_eq_some_iff.mp (parameters.symm.trans (Record.get?_of_own? entry))
      cases same
      exact given

theorem IsRsa.lays (rsa : a.IsRsa) (is : ofRecord? r = some a) : schema.codec.Lays (.record r) rsaOctets := by
  obtain ⟨algorithm, parameters⟩ := ofRecord?_eq_some.mp is
  obtain ⟨any, given, _, shows⟩ := rsa.parameters
  rw [rsa.algorithm] at algorithm
  rw [given] at parameters
  have first := (Primitive.objectIdentifier_lays encode_rsaEncryption).element rfl
  have last : Member.Lays "AlgorithmIdentifier" [.ofField (.optional "parameters" (.untagged .any))] r _ :=
    Member.lays_nil.put (Record.member?_of_get? parameters nofun) rfl (UntaggedCodec.any_lays shows)
  exact Schema.plainSequence_lays (last.put (m := .ofField (.required "algorithm" (.tagged _)))
    (Record.member?_of_get? algorithm nofun) rfl first)

/-- Windows in the record of an algorithm may look elsewhere, as long as they show the same octets. -/
theorem IsRsa.of_shown {r' : Record} {a' : AlgorithmIdentifier} (rsa : a.IsRsa) (is : ofRecord? r = some a)
    (is' : ofRecord? r' = some a') (same : Value.shownEntries r' = Value.shownEntries r) : a'.IsRsa := by
  have member := Value.shown_get?_of_shownEntries same
  obtain ⟨first, second⟩ := ofRecord?_eq_some.mp is
  obtain ⟨first', second'⟩ := ofRecord?_eq_some.mp is'
  obtain ⟨any, given, tag, shows⟩ := rsa.parameters
  have algorithms := member "algorithm"
  rw [first, first'] at algorithms
  have texts : a'.algorithm = a.algorithm := Value.text.inj (Option.some.inj algorithms)
  have parameters := member "parameters"
  rw [second, second', given] at parameters
  cases given' : a'.parameters with
  | none =>
    rw [given'] at parameters
    cases parameters
  | some any' =>
    rw [given'] at parameters
    obtain ⟨tags, _, encoded⟩ := Any.mk.inj (Value.any.inj (Option.some.inj parameters))
    refine ⟨texts.trans rsa.algorithm, any', given', tags.trans tag, ?_⟩
    rw [← Slice.octets_shown, encoded, Slice.octets_shown, shows]

/-- The members are of the kinds that are read for them. -/
structure Kinds (r : Record) : Prop where
  algorithm : ∀ u, r.get? "algorithm" = some u → ∃ text, u = .text text
  parameters : ∀ u, r.get? "parameters" = some u → ∃ any, u = .any any

theorem grants : schema.codec.Grants fun v => ∃ r, v = .record r ∧ Kinds r := by
  have texts : (Schema.primitive .objectIdentifier).codec.Grants fun u => ∃ text, u = .text text := by
    refine fun count => Decoding.returns_content (fun window u read => ?_) count
    obtain ⟨octets, _, read⟩ := Except.bind_eq_ok.mp read
    obtain ⟨text, _, same⟩ := Except.bind_eq_ok.mp read
    exact ⟨text, (Except.ok.inj same).symm⟩
  have opens : Schema.any.codec.Grants fun u => ∃ any, u = .any any :=
    Decoding.returns_after fun any => Decoding.returns_pure ⟨any, rfl⟩
  refine (Schema.plainSequence_grants_pair (by decide) rfl rfl texts opens).mono ?_
  rintro v ⟨r, is, algorithm, parameters⟩
  exact ⟨r, is, algorithm, parameters⟩

/-- What can be measured is the record of an algorithm identifier, if its members are of the right kinds. -/
theorem Kinds.exists_of_measured (kinds : Kinds r) {n : Nat}
    (measured : schema.codec.encodedLength (.record r) = .ok n) : ∃ a, ofRecord? r = some a := by
  have first : Field.required "algorithm" (.primitive .objectIdentifier) ∈ fields := List.mem_cons_self
  obtain ⟨length, inside, _⟩ := Except.bind_eq_ok.mp measured
  obtain ⟨u, _, algorithm, _⟩ := Schema.present_of_contentLength inside first rfl rfl
  obtain ⟨text, rfl⟩ := kinds.algorithm u algorithm
  cases given : r.get? "parameters" with
  | none => exact ⟨⟨text, none⟩, ofRecord?_eq_some.mpr ⟨algorithm, given⟩⟩
  | some w =>
    obtain ⟨any, rfl⟩ := kinds.parameters w given
    exact ⟨⟨text, some any⟩, ofRecord?_eq_some.mpr ⟨algorithm, given⟩⟩

end

end AlgorithmIdentifier

theorem Number.same_zero {x : Number} : x.same 0 = true ↔ x = 0 := by
  constructor
  · intro same
    exact of_decide_eq_true (Bool.and_eq_true_iff.mp same).1
  · rintro rfl
    rfl

namespace PublicKeyInfo

/-- The parts of the encoding of an RSA key that is wrapped as the document. -/
def rsaParts (document : Octets) : List Octets :=
  [AlgorithmIdentifier.rsaOctets, Element.octets 3 (0 :: document)]

/-- The encoding of an RSA key that is wrapped as the document. -/
def rsaOctets (document : Octets) : Octets :=
  Element.sequence (rsaParts document)

/-- The key is an RSA key, wrapped as the document. -/
structure Wraps (info : PublicKeyInfo) (document : Octets) : Prop where
  rsa : info.algorithm.IsRsa
  aligned : info.subjectPublicKey.unused = 0
  shows : info.subjectPublicKey.data.octets = .ok document

/-- No length in the encoding of a wrapped key is too large. The outermost one is the largest. -/
def RsaFits (numbers : List Nat) : Prop :=
  (rsaParts (Rsa.publicOctets numbers)).flatten.length ≤ Length.max

theorem RsaFits.inside {numbers : List Nat} (fits : RsaFits numbers) :
    (numbers.map Rsa.number).flatten.length ≤ Length.max := by
  simp only [RsaFits, rsaParts, Rsa.publicOctets, Element.sequence, Element.octets, List.flatten_cons,
    List.length_append, List.length_cons] at fits
  omega

/-- The fields of public keys with their algorithm. -/
def fields : List (Field Schema) :=
  [.required "algorithm" AlgorithmIdentifier.schema, .required "subjectPublicKey" (.primitive .bitString)]

theorem schema_eq : schema = .plainSequence "SubjectPublicKeyInfo" fields := rfl

theorem declared : schema.Declared := by
  have accepted : Schema.declareSequence "SubjectPublicKeyInfo" none none fields = .ok schema := rfl
  refine .sequence ?_ accepted
  intro f field
  rcases List.mem_cons.mp field with rfl | last
  · exact AlgorithmIdentifier.declared
  · rw [List.mem_singleton.mp last]
    exact .primitive _

/-- The types that keys are built from. -/
theorem eq_of_contains {S : Schema} (within : schema.Contains S) :
    S = schema ∨ S = AlgorithmIdentifier.schema ∨ S = .any ∨ ∃ p, S = .primitive p := by
  rcases within.eq_or_child with same | ⟨U, direct, inner⟩
  · exact Or.inl same
  right
  rcases List.mem_cons.mp direct with rfl | last
  · exact AlgorithmIdentifier.eq_of_contains inner
  · rw [List.mem_singleton.mp last] at inner
    exact Or.inr (Or.inr ⟨_, inner.eq_of_primitive⟩)

theorem ordinary : schema.Ordinary := by
  intro S within
  rcases eq_of_contains within with rfl | rfl | rfl | ⟨p, rfl⟩
  · decide
  · decide
  · decide
  · exact List.forall_mem_nil _

theorem unconditional {inner : Schema} {condition : Condition} : ¬ schema.Contains (.refine inner condition) := by
  intro within
  rcases eq_of_contains within with same | same | same | ⟨p, same⟩ <;> cases same

theorem timeless : ¬ schema.Contains .time := by
  intro within
  rcases eq_of_contains within with same | same | same | ⟨p, same⟩ <;> cases same

theorem sound : schema.Sound where
  named S within := by
    rcases eq_of_contains within with rfl | rfl | rfl | ⟨p, rfl⟩
    · decide
    · decide
    · decide
    · exact List.nodup_nil
  usual := ordinary.traceable.usual
  tagged S tag within fixed := by
    rcases eq_of_contains within with rfl | rfl | rfl | ⟨p, rfl⟩
    · cases fixed
      exact Rsa.sequence_wellFormed
    · cases fixed
      exact Rsa.sequence_wellFormed
    · cases fixed
    · cases fixed
      exact p.wellFormed
  separated name tag fields within := by
    rcases eq_of_contains within with same | same | same | ⟨p, same⟩
    · cases same
      exact ⟨nofun, Field.separated_last _⟩
    · cases same
      exact ⟨nofun, Field.separated_last _⟩
    · cases same
    · cases same
  blind _ _ within := absurd within unconditional

section

variable {r : Record} {info : PublicKeyInfo} {document : Octets}

theorem ofRecord?_eq_some : ofRecord? r = some info ↔
    (∃ algorithm, r.get? "algorithm" = some (.record algorithm) ∧
      AlgorithmIdentifier.ofRecord? algorithm = some info.algorithm) ∧
    r.get? "subjectPublicKey" = some (.bits info.subjectPublicKey) := by
  constructor
  · intro is
    rw [ofRecord?] at is
    split at is
    · rename_i algorithm key first second
      obtain ⟨a, inner, rfl⟩ := Option.map_eq_some_iff.mp is
      exact ⟨⟨algorithm, first, inner⟩, second⟩
    · cases is
  · intro parts
    obtain ⟨⟨algorithm, first, inner⟩, second⟩ := parts
    rw [ofRecord?, first, second]
    exact Option.map_eq_some_iff.mpr ⟨_, inner, rfl⟩

theorem Wraps.given (wraps : info.Wraps document) : info.algorithm.parameters.isSome = true := by
  obtain ⟨any, given, _⟩ := wraps.rsa.parameters
  rw [given]
  rfl

theorem Wraps.lays (wraps : info.Wraps document) (is : ofRecord? r = some info) :
    Member.Lays "SubjectPublicKeyInfo" ((Schema.fieldCodecs fields).map Member.ofField) r
      (rsaParts document).flatten := by
  obtain ⟨⟨algorithm, first, inner⟩, second⟩ := ofRecord?_eq_some.mp is
  have checked : BitString.check info.subjectPublicKey.unused document = .ok 0 := by
    rw [wraps.aligned, BitString.check_zero]
  have key := (Primitive.bitString_lays wraps.shows checked).element rfl
  have last : Member.Lays "SubjectPublicKeyInfo" [.ofField (.required "subjectPublicKey" (.tagged _))] r _ :=
    Member.lays_nil.put (Record.member?_of_get? second nofun) rfl key
  exact last.put (m := .ofField (.required "algorithm" _)) (Record.member?_of_get? first nofun) rfl
    (wraps.rsa.lays inner)

/-- The only open component of a key is the parameters of its algorithm, which have been captured at some time. -/
theorem regular_of_captured (is : ofRecord? r = some info)
    (captured : ∀ any, info.algorithm.parameters = some any →
      ∃ d d', Decoder.Bounded d ∧ Any.read.run d = .ok any d') : schema.Regular (.record r) where
  given := ordinary.given _
  accepted _ _ _ part := absurd part.contains unconditional
  captured any part := by
    obtain ⟨⟨algorithm, first, inner⟩, _⟩ := ofRecord?_eq_some.mp is
    rw [schema_eq, Schema.plainSequence] at part
    cases part with
    | sequence members field entry within =>
      cases members
      rcases List.mem_cons.mp field with rfl | last
      · cases first.symm.trans (Record.get?_of_own? entry)
        exact captured any (AlgorithmIdentifier.parameters_of_component inner within)
      · cases List.mem_singleton.mp last
        cases within

/-- What is written for a wrapped key. -/
theorem Wraps.yields_iff (wraps : info.Wraps document) (is : ofRecord? r = some info) {octets : Octets} :
    Yields (schema.codec.encodedLength (.record r)) (schema.codec.encode (.record r)) octets ↔
      (rsaParts document).flatten.length ≤ Length.max ∧ octets = rsaOctets document :=
  Schema.plainSequence_yields_iff (wraps.lays is)

theorem grants : schema.codec.Grants fun v => ∃ r : Record, v = .record r ∧
    (∀ u, r.get? "algorithm" = some u → ∃ algorithm, u = .record algorithm ∧ AlgorithmIdentifier.Kinds algorithm) ∧
    ∀ u, r.get? "subjectPublicKey" = some u → ∃ b, u = .bits b := by
  have bits : (Schema.primitive .bitString).codec.Grants fun u => ∃ b, u = .bits b := by
    refine fun count => Decoding.returns_content (fun window u read => ?_) count
    obtain ⟨octets, _, read⟩ := Except.bind_eq_ok.mp read
    cases octets with
    | nil => cases read
    | cons first data =>
      obtain ⟨unused, _, same⟩ := Except.bind_eq_ok.mp read
      exact ⟨_, (Except.ok.inj same).symm⟩
  exact Schema.plainSequence_grants_pair (by decide) rfl rfl AlgorithmIdentifier.grants bits

/-- What is parsed as a public key with its algorithm is the record of one, for which the document is written. -/
theorem of_parse {maxDepth : Number} {v : Value} (parsed : Document.parse schema.codec maxDepth document = .ok v) :
    ∃ r info, v = .record r ∧ ofRecord? r = some info ∧
      Yields (schema.codec.encodedLength (.record r)) (schema.codec.encode (.record r)) document := by
  have yields := declared.yields_of_parse sound.named ordinary.traceable timeless parsed
  obtain ⟨r, rfl, records, bits⟩ := grants.decode.complete.outcome parsed
  have first : Field.required "algorithm" AlgorithmIdentifier.schema ∈ fields := List.mem_cons_self
  have last : Field.required "subjectPublicKey" (.primitive .bitString) ∈ fields :=
    List.mem_cons_of_mem _ List.mem_cons_self
  obtain ⟨length, inside, _⟩ := Except.bind_eq_ok.mp yields.measured
  obtain ⟨u, k, algorithm, measured⟩ := Schema.present_of_contentLength inside first rfl rfl
  obtain ⟨w, _, key, _⟩ := Schema.present_of_contentLength inside last rfl rfl
  obtain ⟨inner, rfl, kinds⟩ := records u algorithm
  obtain ⟨a, is⟩ := kinds.exists_of_measured measured
  obtain ⟨b, rfl⟩ := bits w key
  exact ⟨r, ⟨a, b⟩, rfl, ofRecord?_eq_some.mpr ⟨⟨inner, algorithm, is⟩, key⟩, yields⟩

/-- A key with parameters is unwrapped just if it wraps a document that is parsed as an RSA key. -/
theorem rsaPublicKey_eq_ok (given : info.algorithm.parameters.isSome = true) {maxDepth : Number} {key : Value} :
    info.rsaPublicKey maxDepth = .ok key ↔
      ∃ document, info.Wraps document ∧ Document.parse Rsa.publicKey.codec maxDepth document = .ok key := by
  obtain ⟨any, given⟩ := Option.isSome_iff_exists.mp given
  constructor
  · intro read
    rw [rsaPublicKey, given] at read
    obtain ⟨⟨⟩, expected, read⟩ := Except.bind_eq_ok.mp read
    obtain ⟨v, null, read⟩ := Except.bind_eq_ok.mp read
    obtain ⟨tag, shows⟩ := AlgorithmIdentifier.decodeAs_null.mp ⟨v, null⟩
    have aligned : info.subjectPublicKey.unused.same 0 = true := by
      by_contra other
      rw [Bool.eq_false_iff.mpr other] at read
      cases read
    rw [aligned] at read
    obtain ⟨document, shown, parsed⟩ := Except.bind_eq_ok.mp read
    have rsa : info.algorithm.IsRsa := ⟨AlgorithmIdentifier.expect_eq_ok.mp expected, any, given, tag, shows⟩
    exact ⟨document, ⟨rsa, Number.same_zero.mp aligned, shown⟩, parsed⟩
  · intro parts
    obtain ⟨document, wraps, parsed⟩ := parts
    obtain ⟨any', given', null⟩ := wraps.rsa.parameters
    cases given.symm.trans given'
    obtain ⟨v, read⟩ := AlgorithmIdentifier.decodeAs_null.mpr null
    have aligned := Number.same_zero.mpr wraps.aligned
    rw [rsaPublicKey, AlgorithmIdentifier.expect_eq_ok.mpr wraps.rsa.algorithm, given, aligned, wraps.shows]
    exact Except.bind_eq_ok.mpr ⟨(), rfl, Except.bind_eq_ok.mpr ⟨v, read, parsed⟩⟩

theorem ofRecord?_toRecord (info : PublicKeyInfo) : ofRecord? info.toRecord = some info := by
  obtain ⟨⟨algorithm, _ | any⟩, key⟩ := info <;> rfl

/-- Windows in the record of a wrapped key may look elsewhere, as long as they show the same octets. -/
theorem Wraps.of_shown {r' : Record} {info' : PublicKeyInfo} (wraps : info.Wraps document)
    (is : ofRecord? r = some info) (is' : ofRecord? r' = some info')
    (same : Value.shownEntries r' = Value.shownEntries r) : info'.Wraps document := by
  have member := Value.shown_get?_of_shownEntries same
  obtain ⟨⟨algorithm, first, inner⟩, second⟩ := ofRecord?_eq_some.mp is
  obtain ⟨⟨algorithm', first', inner'⟩, second'⟩ := ofRecord?_eq_some.mp is'
  have bits := member "subjectPublicKey"
  rw [second, second'] at bits
  obtain ⟨unused, data⟩ := BitString.mk.inj (Value.bits.inj (Option.some.inj bits))
  have algorithms := member "algorithm"
  rw [first, first', Option.map_some, Option.map_some, Value.shown_record, Value.shown_record] at algorithms
  have rsa := wraps.rsa.of_shown inner inner' (Value.record.inj (Option.some.inj algorithms))
  refine ⟨rsa, unused.trans wraps.aligned, ?_⟩
  rw [← Slice.octets_shown, data, Slice.octets_shown, wraps.shows]

/-- NULL as it is captured when it has been built. -/
def nullParameters : Any :=
  ⟨⟨0, false, 5⟩, ⟨[5, 0], 2, 0, .document⟩, ⟨[5, 0], 0, 2, .document⟩⟩

/-- An RSA key that is wrapped as the document. -/
def ofDocument (document : Octets) : PublicKeyInfo :=
  ⟨⟨AlgorithmIdentifier.rsaEncryption, some nullParameters⟩, .octetAligned (.ofOctets document)⟩

theorem ofRsaPublicKey_eq_ok {key : Value} : ofRsaPublicKey key = .ok info ↔
    ∃ document, Document.build Rsa.publicKey.codec key = .ok document ∧ info = ofDocument document := by
  have null : Any.ofValue (Schema.primitive .null).codec .null = .ok nullParameters := rfl
  have wrapped : ofRsaPublicKey key = (Document.build Rsa.publicKey.codec key).map ofDocument := by
    rw [ofRsaPublicKey, null]
    rfl
  rw [wrapped, Except.map_eq_ok]
  simp only [eq_comm]

theorem wraps_ofDocument (document : Octets) : (ofDocument document).Wraps document :=
  ⟨⟨rfl, nullParameters, rfl, rfl, rfl⟩, rfl, Slice.octets_ofOctets document⟩

theorem build_ofDocument (fits : (rsaParts document).flatten.length ≤ Length.max) :
    Document.build schema.codec (.record (ofDocument document).toRecord) = .ok (rsaOctets document) :=
  declared.build_eq_ok.mpr (((wraps_ofDocument document).yields_iff (ofRecord?_toRecord _)).mpr ⟨fits, rfl⟩)

theorem regular_ofDocument (document : Octets) : schema.Regular (.record (ofDocument document).toRecord) := by
  refine regular_of_captured (ofRecord?_toRecord _) ?_
  intro any given
  cases given
  exact ⟨.ofOctets [5, 0] Decoder.defaultMaxDepth, _, Decoder.bounded_ofOctets _ _, rfl⟩

theorem parse_rsaOctets (fits : (rsaParts document).flatten.length ≤ Length.max) {maxDepth : Number}
    (enough : ¬ maxDepth.less 2 = true) :
    ∃ r info, Document.parse schema.codec maxDepth (rsaOctets document) = .ok (.record r) ∧
      ofRecord? r = some info ∧ info.Wraps document := by
  have wraps := wraps_ofDocument document
  have is := ofRecord?_toRecord (ofDocument document)
  have yields := (wraps.yields_iff is).mpr ⟨fits, rfl⟩
  obtain ⟨w, parsed, same⟩ := declared.parse_of_yields sound enough (regular_ofDocument document) yields
  obtain ⟨r, info, rfl, is', _⟩ := of_parse parsed
  have normal : schema.normal (.record (ofDocument document).toRecord) = .record (ofDocument document).toRecord := rfl
  rw [normal, Value.shown_record, Value.shown_record] at same
  exact ⟨r, info, parsed, is', wraps.of_shown is is' (Value.record.inj same)⟩

end

/-- Keys are wrapped without loss. A key of windows on a modulus and an exponent, if its encoding is not too long, is
wrapped, built, parsed and unwrapped again, where at least two layers are admitted outside and one inside, and comes
back without redundant zeros. A document that is parsed and that has parameters, and that is unwrapped, is built again
octet by octet from the key. -/
theorem rsaPublicKey_lossless :
    (∀ (entries : Record) (modulus exponent : Octets), Rsa.ShowsPublicKey entries modulus exponent →
      RsaFits [Octets.toNat modulus, Octets.toNat exponent] →
      ∀ outer inner : Number, ¬ outer.less 2 = true → ¬ inner.less 1 = true →
        ∃ info document r info' key,
          document = rsaOctets (Rsa.publicOctets [Octets.toNat modulus, Octets.toNat exponent]) ∧
          ofRsaPublicKey (.record entries) = .ok info ∧
          Document.build schema.codec (.record info.toRecord) = .ok document ∧
          Document.parse schema.codec outer document = .ok (.record r) ∧ ofRecord? r = some info' ∧
          info'.rsaPublicKey inner = .ok key ∧
          key.shown = .record (Rsa.publicEntries (Content.Integer.trim modulus) (Content.Integer.trim exponent))) ∧
    ∀ (outer inner : Number) (document : Octets) (v : Value), Document.parse schema.codec outer document = .ok v →
      ∃ r info, v = .record r ∧ ofRecord? r = some info ∧
        (info.algorithm.parameters.isSome = true → ∀ key, info.rsaPublicKey inner = .ok key →
          ∃ info', ofRsaPublicKey key = .ok info' ∧
            Document.build schema.codec (.record info'.toRecord) = .ok document) := by
  constructor
  · intro entries modulus exponent shows fits outer inner enough enough'
    have built := Rsa.publicKey_declared.build_eq_ok.mpr (Rsa.yields_publicKey shows.has fits.inside)
    have wrapped := ofRsaPublicKey_eq_ok.mpr ⟨_, built, rfl⟩
    obtain ⟨r, info, parsed, is, wraps⟩ := parse_rsaOctets fits enough
    obtain ⟨key, parsed', shown⟩ := Rsa.parse_publicKey shows.has fits.inside enough'
    have unwrapped := (rsaPublicKey_eq_ok wraps.given).mpr ⟨_, wraps, parsed'⟩
    rw [Rsa.magnitudes_eq_publicEntries] at shown
    exact ⟨_, _, r, info, key, rfl, wrapped, build_ofDocument fits, parsed, is, unwrapped, shown⟩
  · intro outer inner document v parsed
    obtain ⟨r, info, rfl, is, yields⟩ := of_parse parsed
    refine ⟨r, info, rfl, is, ?_⟩
    intro given key unwrapped
    obtain ⟨inside, wraps, parsed'⟩ := (rsaPublicKey_eq_ok given).mp unwrapped
    -- The key is built as it was parsed, so the same document is wrapped again.
    have yields' := Rsa.publicKey_plain.yields_of_parse Rsa.publicKey_declared parsed'
    have built := Rsa.publicKey_declared.build_eq_ok.mpr yields'
    obtain ⟨fits, rfl⟩ := (wraps.yields_iff is).mp yields
    exact ⟨_, ofRsaPublicKey_eq_ok.mpr ⟨inside, built, rfl⟩, build_ofDocument fits⟩

/-- A wrapped key whose modulus needs a sign octet in its encoding. -/
def smallDocument : Octets :=
  [0x30, 27, 0x30, 13, 6, 9, 0x2A, 0x86, 0x48, 0x86, 0xF7, 0x0D, 1, 1, 1, 5, 0, 3, 10, 0,
    0x30, 7, 2, 2, 0, 143, 2, 1, 3]

/-- A small key with a redundant zero is wrapped and unwrapped without the zero, and wrapped again. -/
theorem rsaPublicKey_lossless_small :
    ∃ info r info' key, ofRsaPublicKey (.record (Rsa.publicEntries [0, 143] [3])) = .ok info ∧
      Document.build schema.codec (.record info.toRecord) = .ok smallDocument ∧
      Document.parse schema.codec Decoder.defaultMaxDepth smallDocument = .ok (.record r) ∧
      ofRecord? r = some info' ∧ info'.rsaPublicKey Decoder.defaultMaxDepth = .ok key ∧
      key.shown = .record (Rsa.publicEntries [143] [3]) ∧
      ∃ again, ofRsaPublicKey key = .ok again ∧
        Document.build schema.codec (.record again.toRecord) = .ok smallDocument := by
  have shows : Rsa.ShowsPublicKey (Rsa.publicEntries [0, 143] [3]) [0, 143] [3] :=
    ⟨⟨_, rfl, Slice.octets_ofOctets _⟩, ⟨_, rfl, Slice.octets_ofOctets _⟩⟩
  have fits : RsaFits [143, 3] := by
    rw [RsaFits]
    decide +kernel
  have encoding : smallDocument = rsaOctets (Rsa.publicOctets [143, 3]) := by decide +kernel
  have two : ¬ Decoder.defaultMaxDepth.less 2 = true := by decide
  obtain ⟨wraps, wrapsAgain⟩ := rsaPublicKey_lossless
  obtain ⟨info, document, r, info', key, same, wrapped, built, parsed, is, unwrapped, shown⟩ :=
    wraps _ [0, 143] [3] shows fits Decoder.defaultMaxDepth Decoder.defaultMaxDepth two (by decide)
  cases same.trans encoding.symm
  refine ⟨info, r, info', key, wrapped, built, parsed, is, unwrapped, shown, ?_⟩
  obtain ⟨r', info'', first, second, again⟩ := wrapsAgain _ Decoder.defaultMaxDepth _ _ parsed
  cases first
  cases second.symm.trans is
  refine again ?_ key unwrapped
  -- The parameters are there, since the document has been parsed as a wrapped key.
  obtain ⟨r', info'', parsed', is', whole⟩ := parse_rsaOctets fits two
  rw [← encoding] at parsed'
  cases parsed.symm.trans parsed'
  cases is.symm.trans is'
  exact whole.given

end PublicKeyInfo

end Der
