import OxenDB.Lib.Bytes

namespace OxenDB

open Lib

def poly : UInt32 := 0x82F63B78

def bitStep (crc : UInt32) : UInt32 :=
  if crc &&& 1 ≠ 0 then (crc >>> 1) ^^^ poly else crc >>> 1

def table0 (i : UInt32) : UInt32 := bitStep^[8] i

/-- `tables k b` is the contribution of byte `b` followed by `k` zero bytes. -/
def tables : ℕ → UInt32 → UInt32
  | 0, i => table0 i
  | k + 1, i => (tables k i >>> 8) ^^^ table0 (tables k i &&& 0xFF)

def updateBytewise (crc : UInt32) (bytes : Bytes) : UInt32 :=
  bytes.foldl (fun crc byte => table0 ((crc ^^^ byte.toUInt32) &&& 0xFF) ^^^ (crc >>> 8)) crc

def word (b0 b1 b2 b3 : UInt8) : UInt32 :=
  b0.toUInt32 ||| (b1.toUInt32 <<< 8) ||| (b2.toUInt32 <<< 16) ||| (b3.toUInt32 <<< 24)

def updateSlice8 (crc : UInt32) : Bytes → UInt32
  | b0 :: b1 :: b2 :: b3 :: b4 :: b5 :: b6 :: b7 :: rest =>
    let lo := word b0 b1 b2 b3 ^^^ crc
    let hi := word b4 b5 b6 b7
    updateSlice8
      (tables 7 (lo &&& 0xFF) ^^^ tables 6 ((lo >>> 8) &&& 0xFF) ^^^
        tables 5 ((lo >>> 16) &&& 0xFF) ^^^ tables 4 (lo >>> 24) ^^^
        tables 3 (hi &&& 0xFF) ^^^ tables 2 ((hi >>> 8) &&& 0xFF) ^^^
        tables 1 ((hi >>> 16) &&& 0xFF) ^^^ tables 0 (hi >>> 24)) rest
  | rest => updateBytewise crc rest

structure Crc32c where
  state : UInt32

def Crc32c.new : Crc32c := ⟨~~~0⟩

/-- The portable path of `update`, taken when the CPU has no CRC32C instruction. -/
def Crc32c.update (h : Crc32c) (bytes : Bytes) : Crc32c := ⟨updateSlice8 h.state bytes⟩

def Crc32c.finalize (h : Crc32c) : UInt32 := ~~~h.state

@[irreducible] def crc32c (bytes : Bytes) : UInt32 := (Crc32c.new.update bytes).finalize

end OxenDB
