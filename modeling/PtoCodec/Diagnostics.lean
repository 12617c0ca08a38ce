import PtoCodec.DecodePrefix

namespace PtoCodec

section FailsWith

variable {α β : Type} {F : Fault → Prop}

end FailsWith

mutual

def Field.names : Field → List String
  | ⟨name, _, _, childs⟩ => name :: Field.namesList childs

def Field.namesList : List Field → List String
  | [] => []
  | f :: fs => f.names ++ Field.namesList fs

end

section Names

variable {ns : List String}

end Names

namespace Encoder

section Buffer

variable {ns : List String}

end Buffer

section Steps

variable {ns : List String}

end Steps

section Walk

variable {δ : Type} (D : Depth δ)

end Walk

end Encoder

namespace Decoder

section Reads

variable {ns : List String}

end Reads

section Walk

variable {ns : List String} {read : Decoder → Except Fault (LuaValue × Decoder)}

variable {δ : Type} (D : Depth δ)

end Walk

end Decoder

end PtoCodec
