import Der.Codec.ContentRule

namespace Der

/-- The codec of a primitive type. -/
def TaggedCodec.primitive (name : String) (tag : Tag) (rule : ContentRule) : TaggedCodec where
  name := name
  tag := tag
  contentLength := rule.length
  writeContent := rule.write
  readContent count := Decoding.content count rule.read

/-- The primitive types. INTEGER has three views: integers of any size, safe integers as numbers, and
the magnitudes of non-negative integers as octets. -/
inductive Primitive where
  | boolean
  | integer
  | safeInteger
  | unsigned
  | bitString
  | octetString
  | null
  | objectIdentifier
  | utf8String
  | printableString
  | ia5String
  | utcTime
  | generalizedTime
  deriving DecidableEq

namespace Primitive

/-- The name of the type in messages. -/
def name : Primitive → String
  | boolean => "BOOLEAN"
  | integer | safeInteger | unsigned => "INTEGER"
  | bitString => "BIT STRING"
  | octetString => "OCTET STRING"
  | null => "NULL"
  | objectIdentifier => "OBJECT IDENTIFIER"
  | utf8String => "UTF8String"
  | printableString => "PrintableString"
  | ia5String => "IA5String"
  | utcTime => "UTCTime"
  | generalizedTime => "GeneralizedTime"

/-- The universal tag number. -/
def tagNumber : Primitive → Nat
  | boolean => 1
  | integer | safeInteger | unsigned => 2
  | bitString => 3
  | octetString => 4
  | null => 5
  | objectIdentifier => 6
  | utf8String => 12
  | printableString => 19
  | ia5String => 22
  | utcTime => 23
  | generalizedTime => 24

/-- The rules for the content octets. -/
def rule : Primitive → ContentRule
  | boolean => .boolean
  | integer => .integer
  | safeInteger => .safeInteger
  | unsigned => .unsigned
  | bitString => .bitString
  | octetString => .octetString
  | null => .null
  | objectIdentifier => .objectIdentifier
  | utf8String => .utf8
  | printableString => .restricted "PrintableString" Content.Text.isPrintable
  | ia5String => .restricted "IA5String" Content.Text.isIa5
  | utcTime => .time "UTCTime" Content.Time.utcText Content.Time.ofUtcText
  | generalizedTime =>
    .time "GeneralizedTime" Content.Time.generalizedText Content.Time.ofGeneralizedText

/-- The codec of the type. -/
def codec (p : Primitive) : TaggedCodec :=
  .primitive p.name (.universal p.tagNumber) p.rule

end Primitive

end Der
