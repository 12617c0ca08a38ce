import PtoCodec.Machine
import PtoCodec.Ieee
import PtoCodec.Lua
import PtoCodec.Schema
import PtoCodec.Encoder
import PtoCodec.Decoder
import PtoCodec.Import
import PtoCodec.Wire
import PtoCodec.Buffer
import PtoCodec.EncoderSpec
import PtoCodec.DecoderSpec
import PtoCodec.Conformance
import PtoCodec.DepthLimit
import PtoCodec.RoundTrip
import PtoCodec.Registry
import PtoCodec.DecodeBounds
import PtoCodec.LuaStack
import PtoCodec.StackWalk
import PtoCodec.StackSpec
import PtoCodec.DecodePrefix
import PtoCodec.DecodeSound
import PtoCodec.Canonical
import PtoCodec.EncodeExact
import PtoCodec.ImportStack
import PtoCodec.ImportSchema
import PtoCodec.WireCode
import PtoCodec.Diagnostics
