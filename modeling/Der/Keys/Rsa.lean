import Der.Schema.Declaration

namespace Der.Rsa

/-- The version of a key of two primes. -/
def twoPrime : Nat := 0

/-- The version of a key of more primes. -/
def multiPrime : Nat := 1

/-- Admits the versions of private keys. -/
def versionCondition : Condition
  | .number n => if n = twoPrime ∨ n = multiPrime then none
    else some ("unsupported RSA key version " ++ n.text)
  | _ => none

/-- Public keys: modulus and public exponent. -/
def publicKey : Schema :=
  .plainSequence "RSAPublicKey"
    [.required "modulus" (.primitive .unsigned), .required "publicExponent" (.primitive .unsigned)]

/-- One of the primes after the second, with its exponent and coefficient. -/
def otherPrimeInfo : Schema :=
  .plainSequence "OtherPrimeInfo"
    [.required "prime" (.primitive .unsigned), .required "exponent" (.primitive .unsigned),
      .required "coefficient" (.primitive .unsigned)]

/-- The primes after the second, of which there is at least one. -/
def otherPrimeInfos : Schema :=
  Schema.declareSequenceOf "OtherPrimeInfos" none none ⟨some 1, none⟩ otherPrimeInfo

/-- Whether a key has the version for more than two primes. -/
def isMultiPrime (key : Record) : Bool :=
  match key.get? "version" with
  | some (.number n) => n = multiPrime
  | _ => false

/-- Requires other primes just where the version announces them. -/
def primesCondition : Condition
  | .record key =>
    match isMultiPrime key, (Record.get? key "otherPrimeInfos").isSome with
    | true, false => some "multi-prime key has no otherPrimeInfos"
    | false, true => some "two-prime key carries otherPrimeInfos"
    | _, _ => none
  | _ => none

/-- The members that stand between the version and the other primes of a private key. -/
def privateNumbers : List String :=
  ["modulus", "publicExponent", "privateExponent", "prime1", "prime2", "exponent1", "exponent2",
    "coefficient"]

/-- Private keys. -/
def privateKey : Schema :=
  .refine
    (.plainSequence "RSAPrivateKey"
      (.required "version" (.refine (.primitive .safeInteger) versionCondition) ::
        privateNumbers.map (Field.required · (.primitive .unsigned)) ++
        [.optional "otherPrimeInfos" otherPrimeInfos]))
    primesCondition

/-- The public key of a private key. -/
def publicKeyOf (key : Record) : Record :=
  ["modulus", "publicExponent"].filterMap fun name => (key.get? name).map (name, ·)

end Der.Rsa
