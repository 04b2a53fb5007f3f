/-
The database of a worker. MySQL answers each call as it likes: whether the
table opens, whether the row is written, what an index lookup finds. What
the program did with it is the list of its calls of `add`.
-/
import Zql.Objects

namespace Zql

/-- What MySQL answers during a call. -/
structure Mysql where
  /-- `open_table` succeeds. -/
  opens : Bool
  /-- `ha_write_row` returns 0. -/
  writesRow : Bool
  /-- The rows an exact lookup of a key finds: the fields of the table with
  their values, `none` for null. -/
  index : Str → List (List (Str × Option Str))

/-- A call of `Database::add`. -/
structure DatabaseAdd where
  database : Str
  table : Str
  row : Row
  /-- The row was handed to `ha_write_row`, and that returned 0. -/
  written : Bool

structure Database where
  adds : List DatabaseAdd

/-- A table that does not open is `return -1`, which is `true`. -/
def Database.add (mysql : Mysql) (d : Database) (databaseName tableName : Str) (row : Row) : Database × Bool :=
  if mysql.opens then
    (⟨d.adds ++ [⟨databaseName, tableName, row, mysql.writesRow⟩]⟩, mysql.writesRow)
  else (⟨d.adds ++ [⟨databaseName, tableName, row, false⟩]⟩, true)

/-- The text `prepareKeybuf` stores into the key field: `"%d"` of an `int`. -/
def Database.prepareKeybuf (value : Int32) : Str :=
  if value.toInt < 0 then 0x2D :: decimal value.toInt.natAbs else decimal value.toInt.natAbs

/-- The bytes of `"NULL"`. -/
def nullText : Str := [0x4E, 0x55, 0x4C, 0x4C]

/-- The fields of a found row, put into the result one after the other. -/
def Database.readFields (result : Row) (fields : List (Str × Option Str)) : Row :=
  fields.foldl (fun result field => result.insert field.1 (field.2.getD nullText)) result

/-- Whether a row was found, and the map filled. -/
def Database.get (mysql : Mysql) (_databaseName _tableName : Str) (pk : UInt64) (result : Row) : Bool × Row :=
  if mysql.opens then
    let rows := mysql.index (prepareKeybuf pk.toUInt32.toInt32)
    (!rows.isEmpty, rows.foldl readFields result)
  else (false, result)

/-- **What a call adds to the list**: one entry, written when the table
opened and took the row. -/
theorem Database.add_adds (mysql : Mysql) (d : Database) (databaseName tableName : Str) (row : Row) :
    (d.add mysql databaseName tableName row).1.adds =
      d.adds ++ [⟨databaseName, tableName, row, mysql.opens && mysql.writesRow⟩] := by
  unfold Database.add
  cases mysql.opens <;> rfl

end Zql
