import BitcoinWasm.Encoding.Positional
import BitcoinWasm.Encoding.SignMagnitude
import BitcoinWasm.Encoding.PrefixCode
import BitcoinWasm.Numbers.Word
import BitcoinWasm.Secp256k1.Normalize
import BitcoinWasm.Script.Operation
import BitcoinWasm.Script.Library
import BitcoinWasm.CLibrary.IntegerLiteral
import BitcoinWasm.Bridge.Assembler
import BitcoinWasm.Bridge.Disassembler
import BitcoinWasm.Disassembly.Safety
import BitcoinWasm.Disassembly.RoundTrip
import BitcoinWasm.Assembly.Meaning
import BitcoinWasm.Assembly.HexLiteral
import BitcoinWasm.Assembly.Rejection
import BitcoinWasm.Disassembly.Text
import BitcoinWasm.Disassembly.Tokens
import BitcoinWasm.Bridge.Session
import BitcoinWasm.Bridge.Marshalling
import BitcoinWasm.Marshalling.EndToEnd
import BitcoinWasm.Bridge.Caller
import BitcoinWasm.Bridge.HeapUse
import BitcoinWasm.Marshalling.Text
import BitcoinWasm.Marshalling.Session
import BitcoinWasm.Marshalling.Program
import BitcoinWasm.Secp256k1.SquareRoot
import BitcoinWasm.Secp256k1.Codec
import BitcoinWasm.Numbers.Divstep
import BitcoinWasm.Numbers.DivstepBound
import BitcoinWasm.Numbers.Signed
import BitcoinWasm.Secp256k1.Signed62
import BitcoinWasm.Secp256k1.Batch
import BitcoinWasm.Secp256k1.BatchVar
import BitcoinWasm.Secp256k1.Update62
