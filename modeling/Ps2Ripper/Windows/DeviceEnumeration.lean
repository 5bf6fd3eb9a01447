import Ps2Ripper.Core.Models

/-!
# The disks of the computer

`windows/device_enumeration.py`: what makes a disk ready for OPL, and when it is still the selected
one.
-/

namespace Ps2Ripper

/-- What `validate_opl_compatibility` says about the volumes. -/
def volumeReasons (volumes : List VolumeInfo) : List String :=
  match volumes with
  | [volume] =>
    if (volume.filesystem.getD "").toLower ≠ "exfat" then
      let filesystem := volume.filesystem.getD ""
      let shown := if filesystem = "" then "unknown" else filesystem
      [s!"Filesystem is {shown}, not exFAT."]
    else if volume.mountPoints = [] then ["The exFAT volume has no accessible mount point."]
    else if !volume.writable then ["The exFAT volume is read-only or inaccessible."]
    else []
  | _ => [s!"Expected one mounted volume; found {volumes.length}."]

def validateOplCompatibility (disk : PhysicalDisk) : Bool × List String :=
  let reasons :=
    (if disk.partitionStyle ≠ .mbr then
      [s!"Partition table is {disk.partitionStyle.name}, not MBR."] else []) ++
    (if disk.partitions.length ≠ 1 then
      [s!"Expected one primary partition; found {disk.partitions.length}."] else []) ++
    volumeReasons disk.volumes
  (reasons.isEmpty, reasons)

def verifySameIdentity (selected current : PhysicalDisk) : Except PyError Unit :=
  if selected.number ≠ current.number ∨ selected.identityTuple ≠ current.identityTuple then
    .error (.runtimeError (s!"{selected.physicalName} no longer matches the selected hardware " ++
      "identity. Operation aborted."))
  else .ok ()

end Ps2Ripper
