/-
`Serialize`: each message written to a `CborWriter`, its wrapper first.
-/
import Zql.Cbor

namespace Zql

/-- The keys and values of a map, in the order of its keys. -/
def CborWriter.writeRow (w : CborWriter) (row : Row) : CborWriter :=
  row.toList.foldl (fun w entry => (w.writeString entry.1).writeString entry.2) w

/-! ## Requests -/

def RequestGet.serialize (r : RequestGet) (w : CborWriter) : CborWriter :=
  ((((w.writeTag tagRequestGet).writeArray 3).writeString r.database).writeString r.table).writeUInt64 r.pk

def RequestAdd.serialize (r : RequestAdd) (w : CborWriter) : CborWriter :=
  (((((w.writeTag tagRequestAdd).writeArray 3).writeString r.database).writeString r.table).writeMap
    (Int32.ofNat r.row.size)).writeRow r.row

def RequestAddContinue.serialize (r : RequestAddContinue) (w : CborWriter) : CborWriter :=
  (((w.writeTag tagRequestAddContinue).writeArray 2).writeUInt r.initRequestId).writeInt r.compareResult

def Request.serialize : Request → CborWriter → CborWriter
  | .get r => r.serialize
  | .add r => r.serialize
  | .addContinue r => r.serialize

def RequestWrapper.serialize (wrapper : RequestWrapper) (w : CborWriter) : CborWriter :=
  wrapper.request.serialize (((w.writeTag tagRequestWrapper).writeArray 2).writeUInt wrapper.id)

/-! ## Responses -/

def ResponseGetOk.serialize (r : ResponseGetOk) (w : CborWriter) : CborWriter :=
  ((w.writeTag tagResponseGetOk).writeMap (Int32.ofNat r.values.size)).writeRow r.values

def ResponseGetEmpty.serialize (w : CborWriter) : CborWriter := (w.writeTag tagResponseGetNotFound).writeMap 0

def ResponseAddOk.serialize (w : CborWriter) : CborWriter := (w.writeTag tagResponseAddOk).writeMap 0

def ResponseAddTraverse.serialize (r : ResponseAddTraverse) (w : CborWriter) : CborWriter :=
  (((w.writeTag tagResponseAddTraverse).writeArray 2).writeUInt r.initRequestId).writeBytes r.ciphertext

def Response.serialize : Response → CborWriter → CborWriter
  | .getOk r => r.serialize
  | .getEmpty => ResponseGetEmpty.serialize
  | .addOk => ResponseAddOk.serialize
  | .addTraverse r => r.serialize

def ResponseWrapper.serialize (wrapper : ResponseWrapper) (w : CborWriter) : CborWriter :=
  wrapper.response.serialize (((w.writeTag tagResponseWrapper).writeArray 2).writeUInt wrapper.id)

end Zql
