import Mathlib.Data.List.Infix

/-!
# Shared vocabulary of the server

Strings are lists of characters, one for each byte of the C string before its
terminating NUL. The constants are those of `media-server-global.h` and
`media-server-types.h`, the error codes those of `media-server-error.h`.
-/

namespace MediaServer

abbrev Text := List Char

-- the tests whether a list holds a string, or a string with a number
instance : LawfulBEq Text := inferInstance
instance : LawfulBEq (Int × Text) := inferInstance

def msRootPathInternal : Text := "/opt/media".toList
def msRootPathExternal : Text := "/opt/storage/sdcard".toList
def msDbUpdateNotiPath : Text := "/opt/data/file-manager-service".toList

def msErrNone : Int := 0
def msErrArgInvalid : Int := -0x01
def msErrNowRegisterFile : Int := -0x06
def msErrDirOpenFail : Int := -0x10
def msErrDbInsertRecordFail : Int := -0x31
def msErrDbDeleteRecordFail : Int := -0x32
def msErrDbUpdateRecordFail : Int := -0x33
def msErrDbExistItemFail : Int := -0x36
def msErrDrmRegisterFail : Int := -0x42
def msErrMimeGetFail : Int := -0x64
def msErrMax : Int := -0xff

/-- `ms_storage_type_t`. The third value is what the enumeration holds after
`ms_get_storage_type_by_full` has stored `MS_ERR_INVALID_FILE_PATH` in it. -/
inductive StorageType where
  | internal
  | external
  | invalidFilePath
deriving DecidableEq, Repr

/-- `strstr(hay, needle) != NULL`. -/
def strstr (hay needle : Text) : Bool := decide (needle <:+: hay)

end MediaServer
