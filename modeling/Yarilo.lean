import Yarilo.FileIndex.UidSpace
import Yarilo.FileIndex.LogBytes
import Yarilo.MailIndex.CacheRuns
import Yarilo.FolderLayout.Runs
import Yarilo.FileIndex.Quota
import Yarilo.Auth.Cached
import Yarilo.Auth.Counting
import Yarilo.Mailbox.Listing
import Yarilo.Mailbox.Crlf
import Yarilo.Acl.Inheritance
import Yarilo.Locks.Retry
import Yarilo.Locks.Agreement
import Yarilo.Director.Bursts
import Yarilo.Director.Convergence
import Yarilo.Director.Displacement
import Yarilo.Warden.Reconcile
import Yarilo.Warden.Slots
import Yarilo.Maildir.Renames
import Yarilo.Jmap.Query
import Yarilo.FileIndex.Absorption
import Yarilo.FileIndex.Faults
import Yarilo.MailIndex.Bounds
import Yarilo.MailIndex.CacheTables
import Yarilo.Director.Membership
import Yarilo.Director.Order
import Yarilo.Director.Registry
