import HakoDB.Lib.ByteCodec

/-! The checksum of the log records, bit by bit with the reflected polynomial. The development is
over any checksum; this is the one to run it with. -/
namespace HakoDB
open ByteCodec

def crc32Round (c : UInt32) : UInt32 := if c &&& 1 = 1 then (c >>> 1) ^^^ 0xEDB88320 else c >>> 1

def crc32Byte (c : UInt32) (b : UInt8) : UInt32 := crc32Round^[8] (c ^^^ b.toUInt32)

def crc32 (bs : Bytes) : UInt32 := bs.foldl crc32Byte 0xFFFFFFFF ^^^ 0xFFFFFFFF

example : crc32 (asBytes "123456789") = 0xCBF43926 := by decide +kernel

end HakoDB
