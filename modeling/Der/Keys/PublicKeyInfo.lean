import Der.Keys.Rsa
import Der.Secret

namespace Der

/-- An algorithm and its parameters, whose type depends on the algorithm. -/
structure AlgorithmIdentifier where
  algorithm : String
  parameters : Option Any
  deriving DecidableEq

/-- A public key and its algorithm. -/
structure PublicKeyInfo where
  algorithm : AlgorithmIdentifier
  subjectPublicKey : BitString
  deriving DecidableEq

namespace AlgorithmIdentifier

/-- The algorithm of RSA keys. -/
def rsaEncryption : String := "1.2.840.113549.1.1.1"

/-- The algorithm of elliptic curve keys. Its parameters name the curve. -/
def idEcPublicKey : String := "1.2.840.10045.2.1"

/-- A curve over a prime field of 256 bits. -/
def prime256v1 : String := "1.2.840.10045.3.1.7"

/-- A curve over a prime field of 384 bits. -/
def secp384r1 : String := "1.3.132.0.34"

/-- Algorithm identifiers. -/
def schema : Schema :=
  .plainSequence "AlgorithmIdentifier"
    [.required "algorithm" (.primitive .objectIdentifier), .optional "parameters" .any]

/-- The record of an algorithm identifier. -/
def toRecord (a : AlgorithmIdentifier) : Record :=
  ("algorithm", .text a.algorithm) :: match a.parameters with
    | some any => [("parameters", .any any)]
    | none => []

/-- The algorithm identifier of a record of the right shape. -/
def ofRecord? (r : Record) : Option AlgorithmIdentifier :=
  match r.get? "algorithm", r.get? "parameters" with
  | some (.text algorithm), some (.any any) => some ⟨algorithm, some any⟩
  | some (.text algorithm), none => some ⟨algorithm, none⟩
  | _, _ => none

/-- Refuses other algorithms. -/
def expect (a : AlgorithmIdentifier) (algorithm : String) : Except Fault Unit :=
  if a.algorithm = algorithm then .ok ()
  else .error (.ofCause (.wrongAlgorithm algorithm a.algorithm))

/-- The curve of an elliptic curve key. -/
def namedCurve (a : AlgorithmIdentifier) : Except Fault Value := do
  a.expect idEcPublicKey
  match a.parameters with
  | none => throw (.ofCause .missingCurve)
  | some any =>
    any.decodeAs (Schema.primitive .objectIdentifier).codec Decoder.defaultMaxDepth

end AlgorithmIdentifier

namespace PublicKeyInfo

/-- Public keys with their algorithm. -/
def schema : Schema :=
  .plainSequence "SubjectPublicKeyInfo"
    [.required "algorithm" AlgorithmIdentifier.schema,
      .required "subjectPublicKey" (.primitive .bitString)]

/-- The record of a public key with its algorithm. -/
def toRecord (info : PublicKeyInfo) : Record :=
  [("algorithm", .record info.algorithm.toRecord), ("subjectPublicKey", .bits info.subjectPublicKey)]

/-- The public key with its algorithm in a record of the right shape. -/
def ofRecord? (r : Record) : Option PublicKeyInfo :=
  match r.get? "algorithm", r.get? "subjectPublicKey" with
  | some (.record algorithm), some (.bits key) =>
    (AlgorithmIdentifier.ofRecord? algorithm).map (⟨·, key⟩)
  | _, _ => none

/-- The RSA key inside, if the algorithm is that of RSA keys. Parameters may only be NULL. -/
def rsaPublicKey (info : PublicKeyInfo) (maxDepth : Number) : Except Fault Value := do
  info.algorithm.expect AlgorithmIdentifier.rsaEncryption
  if let some any := info.algorithm.parameters then
    let _ ← any.decodeAs (Schema.primitive .null).codec Decoder.defaultMaxDepth
  if !(info.subjectPublicKey.unused.same 0) then
    throw (.ofCause (.unalignedKey info.subjectPublicKey.unused))
  Document.parse Rsa.publicKey.codec maxDepth (← info.subjectPublicKey.data.octets)

/-- An RSA key with its algorithm, whose parameters are NULL. -/
def ofRsaPublicKey (key : Value) : Except Fault PublicKeyInfo := do
  let parameters ← Any.ofValue (Schema.primitive .null).codec .null
  let document ← Document.build Rsa.publicKey.codec key
  return ⟨⟨AlgorithmIdentifier.rsaEncryption, some parameters⟩,
    .octetAligned (.ofOctets document)⟩

end PublicKeyInfo

end Der

namespace Der.EllipticCurve

/-- The only version of private keys. -/
def version : Nat := 1

/-- Admits the version of private keys. -/
def versionCondition : Condition
  | .number n => if n = version then none
    else some ("unsupported EC key version " ++ n.text)
  | _ => none

/-- An explicit tag of the context-specific class. -/
def explicit (name : String) (number : Nat) (inner : Schema) : Schema :=
  .explicit name ⟨TagClass.contextSpecific.toNumber, true, number⟩ inner

/-- Private keys. -/
def privateKey : Schema :=
  .plainSequence "ECPrivateKey"
    [.required "version" (.refine (.primitive .safeInteger) versionCondition),
      .required "privateKey" (.primitive .octetString),
      .optional "parameters" (explicit "parameters" 0 (.primitive .objectIdentifier)),
      .optional "publicKey" (explicit "publicKey" 1 (.primitive .bitString))]

/-- The secret scalar of a private key, made from a slice of the document, if the key has one. -/
def secret? (key : Record) (slicing : Slicing) : Option (Except Fault Secret) :=
  match key.get? "privateKey" with
  | some (.octets window) => some (window.toSecret slicing)
  | _ => none

end Der.EllipticCurve
