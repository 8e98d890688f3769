import Der.Codec.Collection
import Der.Codec.Open
import Der.Codec.Structure
import Der.Codec.Tagging

namespace Der

/-- The description of a type. -/
inductive Schema where
  | primitive (p : Primitive)
  /-- The times of certificates. -/
  | time
  /-- Any element at all. -/
  | any
  /-- A primitive type with a content rule of the caller's own. -/
  | custom (name : String) (tag : Tag) (rule : ContentRule)
  /-- A type without a fixed tag, with rules of the caller's own. -/
  | foreign (c : UntaggedCodec)
  | sequence (name : String) (tag : Tag) (fields : List (Field Schema))
  | set (name : String) (tag : Tag) (fields : List (Field Schema))
  | sequenceOf (name : String) (tag : Tag) (bounds : SizeBounds) (item : Schema)
  | setOf (name : String) (tag : Tag) (bounds : SizeBounds) (item : Schema)
  | explicit (name : String) (tag : Tag) (inner : Schema)
  | implicit (name : String) (tagClass number : Number) (inner : Schema)
  | refine (inner : Schema) (condition : Condition)

namespace Schema

mutual

/-- The codec of a described type. -/
def codec : Schema → Codec
  | primitive p => .tagged p.codec
  | time => .untagged .time
  | any => .untagged .any
  | custom name tag rule => .tagged (.primitive name tag rule)
  | foreign c => .untagged c
  | sequence name tag fields => .tagged (.sequence name tag (fieldCodecs fields))
  | set name tag fields => .tagged (.set name tag (fieldCodecs fields))
  | sequenceOf name tag bounds item => .tagged (.sequenceOf name tag bounds item.codec)
  | setOf name tag bounds item => .tagged (.setOf name tag bounds item.codec)
  | explicit name tag inner => .tagged (.explicit name tag inner.codec)
  | implicit name tagClass number inner => inner.codec.implicit name tagClass number
  | refine inner condition => inner.codec.refine condition

/-- The fields of a described type, with their codecs. -/
def fieldCodecs : List (Field Schema) → List (Field Codec)
  | [] => []
  | ⟨name, presence, type⟩ :: rest => ⟨name, presence, type.codec⟩ :: fieldCodecs rest

end

theorem fieldCodecs_eq_map (fields : List (Field Schema)) :
    fieldCodecs fields = fields.map (Field.map codec) := by
  induction fields with
  | nil => rfl
  | cons field rest ih => simp [fieldCodecs, Field.map, ih]

end Schema

end Der
