import MediaServer.Buffer.Format
import MediaServer.Buffer.NodePath
import MediaServer.Inotify.IgnoreFile
import MediaServer.Inotify.Database
import MediaServer.Inotify.Control
import MediaServer.Inotify.Updates
import MediaServer.Inotify.Dispatch
import MediaServer.Inotify.WatchMap
import MediaServer.Inotify.BulkRemoval
import MediaServer.Inotify.Descriptors
import MediaServer.Inotify.Relabel
import MediaServer.Inotify.CreateFile
import MediaServer.Inotify.Atomic
import MediaServer.Register.Delete
import MediaServer.Register.HandOver
import MediaServer.Register.RegList
import MediaServer.DbSvc.Storage
import MediaServer.DbSvc.Load
import MediaServer.Scan.CardIdentity
import MediaServer.Scan.Connections
import MediaServer.Scan.DbStatus
import MediaServer.Scan.Duplicates
import MediaServer.Scan.Removal
import MediaServer.Scan.PowerLock
import MediaServer.Scan.Priority
import MediaServer.Scan.Prune
import MediaServer.Scan.Requests
import MediaServer.Scan.MmcInfo
import MediaServer.Scan.Release
import MediaServer.Scan.Walkers
import MediaServer.DbSvc.Bundles
import MediaServer.Client.Notification
import MediaServer.Client.Registration
import MediaServer.Main.Process
import MediaServer.Main.Shutdown
import MediaServer.Inotify.Atomic
