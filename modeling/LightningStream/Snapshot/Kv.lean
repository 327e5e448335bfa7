import LightningStream.Header

/-!
# Snapshot entries

The entries a snapshot carries for one DBI, and the sequence of them that
repeated `Next` calls on a DBI message return. How a message stores its
entries is the concern of the codec; its readers see only this sequence.
-/

namespace LightningStream.Snapshot

/-- `KV`: an entry with its header fields split out. -/
structure Kv where
  key : Bytes
  value : Bytes
  timestampNano : UInt64
  flags : UInt32
deriving DecidableEq, Repr

def Kv.maskedFlags (kv : Kv) : Flags := Header.masked kv.flags.toUInt8

/-- What `Next` returns from a reset cursor until it fails; `none` ends with
`io.EOF`. -/
structure Reading (η : Type) where
  kvs : List Kv
  ending : Option η
deriving DecidableEq

def Reading.ofList {η : Type} (kvs : List Kv) : Reading η := ⟨kvs, none⟩

def currentFormatVersion : UInt32 := 3
def compatFormatVersion : UInt32 := 1
def writeCompatFormatVersion : UInt32 := 1

end LightningStream.Snapshot
